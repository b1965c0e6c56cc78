import Mathlib.Algebra.Order.Field.Rat
import Mathlib.Data.Prod.Lex
import Mathlib.Tactic.FieldSimp

/-!
# Perfcached.Cluster.Score

The score of a node for a key (`src/clplace.c`, `src/clmap.c`, `src/pc_mix.h`).

A node's mix with the key's hash gives the term `64 - log2(mix)` in fixed point, from a table of
the logarithm with linear interpolation. A node beats another if its weight over its term is the
greater; the comparison is by cross products, and ties break on the node id.

The arithmetic is that of the machine: 64 bit words, which wrap. `DtermExact` says that none of
the operations on the way to a term does, and `beats_iff` that the comparison is that of the
rational scores.
-/

namespace Perfcached.Cluster

open Nat

/-- `PC_CLMAP_ST_READY`, among the state bytes of the wire format. -/
def pcClmapStReady : BitVec 8 := 2

def pcClmapWUnset : BitVec 16 := 0xFFFF

/-- `struct pc_clmap_node`, with the fields placement reads. -/
structure ClmapNode where
  nodeId : BitVec 16
  addr : BitVec 32
  clusterPort : BitVec 16
  state : BitVec 8
  capWeight : BitVec 16
  adminWeight : BitVec 16
  deriving DecidableEq

def pcClmapWeight (n : ClmapNode) : BitVec 32 :=
  if n.adminWeight ≠ pcClmapWUnset then n.adminWeight.setWidth 32 else n.capWeight.setWidth 32

def pcClmapPlaceable (n : ClmapNode) : Bool :=
  n.state = pcClmapStReady ∧ 0 < pcClmapWeight n

/-- `pc_hrw_mix`. Its products wrap: it is a hash. -/
def pcHrwMix (kh : BitVec 64) (addr : BitVec 32) (port : BitVec 16) : BitVec 64 :=
  let h := kh ^^^ ((addr.setWidth 64 <<< 16 ||| port.setWidth 64) * 0x9E3779B97F4A7C15)
  let h := h ^^^ h >>> 33
  let h := h * 0xff51afd7ed558ccd
  let h := h ^^^ h >>> 33
  let h := h * 0xc4ceb9fe1a85ec53
  h ^^^ h >>> 33

def pcClplaceMix (kh : BitVec 64) (addr : BitVec 32) (port : BitVec 16) : BitVec 64 :=
  pcHrwMix kh addr port

/-! ### The logarithm -/

def log2Tab : List Nat :=
  [0, 46551, 91711, 135563, 178179, 219628, 259971, 299266,
   337566, 374920, 411375, 446971, 481749, 515745, 548995, 581529,
   613378, 644570, 675132, 705089, 734464, 763280, 791557, 819315,
   846573, 873348, 899658, 925518, 950944, 975949, 1000547, 1024752,
   1048576]

/-- The loop of `pc_clplace_dterm` from bit `m` down. Where no bit above is set and `h` is not
zero, bit 0 is. -/
def msbFrom (h : BitVec 64) : Nat → Nat
  | 0 => 0
  | m + 1 => if h.getLsbD (m + 1) then m + 1 else msbFrom h m

def msb (h : BitVec 64) : Nat := msbFrom h 63

/-- The leading 1 moved to bit 63. -/
def norm (h : BitVec 64) : BitVec 64 := h <<< (63 - msb h)

/-- The 5 bits below the leading 1. -/
def tabIdx (h : BitVec 64) : Nat := (norm h >>> 58 &&& 0x1F).toNat

/-- The 20 bits below the index. -/
def tabRem (h : BitVec 64) : BitVec 64 := norm h >>> 38 &&& 0xFFFFF

def tabLo (h : BitVec 64) : BitVec 64 := BitVec.ofNat 64 (log2Tab.getD (tabIdx h) 0)

def tabHi (h : BitVec 64) : BitVec 64 := BitVec.ofNat 64 (log2Tab.getD (tabIdx h + 1) 0)

/-- The interpolated mantissa. -/
def frac (h : BitVec 64) : BitVec 64 := tabLo h + (((tabHi h - tabLo h) * tabRem h) >>> 20)

def pcClplaceDterm (h : BitVec 64) : BitVec 64 :=
  if h = 0 then 64 <<< 20
  else (BitVec.ofNat 64 (64 - msb h) <<< 20) - frac h

section

variable (h : BitVec 64)

theorem msbFrom_le (m : Nat) : msbFrom h m ≤ m := by
  induction m with
  | zero => exact le_refl 0
  | succ m ih =>
    rw [msbFrom]
    split
    · exact le_rfl
    · exact le_succ_of_le ih

theorem getLsbD_of_msbFrom_lt {m i : Nat} (hlt : msbFrom h m < i) (hle : i ≤ m) :
    h.getLsbD i = false := by
  induction m with
  | zero => omega
  | succ m ih =>
    rw [msbFrom] at hlt
    split at hlt
    · omega
    · rename_i hclear
      rcases lt_or_eq_of_le hle with hi | rfl
      · exact ih hlt (le_of_lt_succ hi)
      · simpa using hclear

theorem msb_le : msb h ≤ 63 := msbFrom_le h 63

/-- No bit above `msb` is set. -/
theorem toNat_lt_msb : h.toNat < 2 ^ (msb h + 1) := by
  apply lt_pow_two_of_testBit
  intro i hi
  by_cases h64 : i ≤ 63
  · exact getLsbD_of_msbFrom_lt h (lt_of_succ_le hi) h64
  · exact BitVec.getLsbD_of_ge h i (by omega)

theorem toNat_norm : (norm h).toNat = h.toNat * 2 ^ (63 - msb h) := by
  have hle := msb_le h
  have hlt : h.toNat * 2 ^ (63 - msb h) < 2 ^ (msb h + 1) * 2 ^ (63 - msb h) :=
    Nat.mul_lt_mul_of_pos_right (toNat_lt_msb h) (Nat.two_pow_pos _)
  rw [← pow_add, show msb h + 1 + (63 - msb h) = 64 by omega] at hlt
  rw [norm, BitVec.toNat_shiftLeft, shiftLeft_eq, mod_eq_of_lt hlt]

theorem tabIdx_lt : tabIdx h < 32 := by
  have : (norm h >>> 58 &&& 0x1F).toNat ≤ 31 := by
    rw [BitVec.toNat_and]
    exact and_le_right
  exact lt_succ_of_le this

theorem toNat_tabRem_lt : (tabRem h).toNat < 2 ^ 20 := by
  have : (tabRem h).toNat ≤ 0xFFFFF := by
    rw [tabRem, BitVec.toNat_and]
    exact and_le_right
  omega

end

theorem log2Tab_lt : ∀ i < 32, log2Tab.getD i 0 < log2Tab.getD (i + 1) 0 ∧
    log2Tab.getD (i + 1) 0 ≤ 2 ^ 20 := by
  decide

theorem toNat_tabLo (h : BitVec 64) : (tabLo h).toNat = log2Tab.getD (tabIdx h) 0 := by
  have := log2Tab_lt _ (tabIdx_lt h)
  rw [tabLo, BitVec.toNat_ofNat, mod_eq_of_lt (by omega)]

theorem toNat_tabHi (h : BitVec 64) : (tabHi h).toNat = log2Tab.getD (tabIdx h + 1) 0 := by
  have := log2Tab_lt _ (tabIdx_lt h)
  rw [tabHi, BitVec.toNat_ofNat, mod_eq_of_lt (by omega)]

theorem tabLo_lt_tabHi (h : BitVec 64) :
    (tabLo h).toNat < (tabHi h).toNat ∧ (tabHi h).toNat ≤ 2 ^ 20 := by
  rw [toNat_tabLo, toNat_tabHi]
  exact log2Tab_lt _ (tabIdx_lt h)

/-- No operation on the way to the term of `h` wraps, and the term is positive. -/
structure DtermExact (h : BitVec 64) : Prop where
  norm : (norm h).toNat = h.toNat * 2 ^ (63 - msb h)
  index : tabIdx h + 1 < log2Tab.length
  diff : (tabHi h - tabLo h).toNat + (tabLo h).toNat = (tabHi h).toNat
  prod : ((tabHi h - tabLo h) * tabRem h).toNat = (tabHi h - tabLo h).toNat * (tabRem h).toNat
  frac : (frac h).toNat = (tabLo h).toNat + (((tabHi h - tabLo h) * tabRem h) >>> 20).toNat
  whole : (BitVec.ofNat 64 (64 - msb h) <<< 20).toNat = (64 - msb h) * 2 ^ 20
  term : h ≠ 0 → (pcClplaceDterm h).toNat + (Cluster.frac h).toNat = (64 - msb h) * 2 ^ 20
  pos : 0 < (pcClplaceDterm h).toNat
  le : (pcClplaceDterm h).toNat ≤ 64 * 2 ^ 20

section

variable (h : BitVec 64)

theorem toNat_diff : (tabHi h - tabLo h).toNat = (tabHi h).toNat - (tabLo h).toNat := by
  have hlt := tabLo_lt_tabHi h
  exact BitVec.toNat_sub_of_le (by rw [BitVec.le_def]; omega)

theorem toNat_prod :
    ((tabHi h - tabLo h) * tabRem h).toNat = (tabHi h - tabLo h).toNat * (tabRem h).toNat := by
  have hlt := tabLo_lt_tabHi h
  have hrem := toNat_tabRem_lt h
  have hdiff : (tabHi h - tabLo h).toNat ≤ 2 ^ 20 := by
    rw [toNat_diff]
    omega
  have hprod := mul_le_mul hdiff (le_of_lt hrem)
  rw [BitVec.toNat_mul, mod_eq_of_lt (by omega)]

/-- The interpolated part stays below the step of the table. -/
theorem toNat_part_lt :
    (((tabHi h - tabLo h) * tabRem h) >>> 20).toNat < (tabHi h).toNat - (tabLo h).toNat := by
  have hlt := tabLo_lt_tabHi h
  rw [BitVec.toNat_ushiftRight, Nat.shiftRight_eq_div_pow, toNat_prod, toNat_diff]
  rw [Nat.div_lt_iff_lt_mul (Nat.two_pow_pos 20)]
  exact Nat.mul_lt_mul_of_pos_left (toNat_tabRem_lt h) (by omega)

theorem toNat_frac : (frac h).toNat =
    (tabLo h).toNat + (((tabHi h - tabLo h) * tabRem h) >>> 20).toNat := by
  have hpart := toNat_part_lt h
  rw [frac, BitVec.toNat_add, mod_eq_of_lt (by omega)]

/-- The mantissa stays below one. -/
theorem toNat_frac_lt : (frac h).toNat < 2 ^ 20 := by
  have hlt := tabLo_lt_tabHi h
  have hpart := toNat_part_lt h
  rw [toNat_frac]
  omega

theorem toNat_whole : (BitVec.ofNat 64 (64 - msb h) <<< 20).toNat = (64 - msb h) * 2 ^ 20 := by
  rw [BitVec.toNat_shiftLeft, shiftLeft_eq, BitVec.toNat_ofNat, mod_eq_of_lt (a := 64 - msb h)
    (by omega), mod_eq_of_lt (by omega)]

end

/-- The term, without wrap. -/
theorem toNat_dterm {h : BitVec 64} (hne : h ≠ 0) :
    (pcClplaceDterm h).toNat = (64 - msb h) * 2 ^ 20 - (frac h).toNat := by
  have hle := msb_le h
  have hfrac := toNat_frac_lt h
  rw [pcClplaceDterm, if_neg hne, BitVec.toNat_sub_of_le, toNat_whole]
  rw [BitVec.le_def, toNat_whole]
  omega

/-- **The term is computed without overflow, and no denominator is zero.** -/
theorem dtermExact (h : BitVec 64) : DtermExact h := by
  have hle := msb_le h
  have hfrac := toNat_frac_lt h
  have hlt := tabLo_lt_tabHi h
  have hbounds : 0 < (pcClplaceDterm h).toNat ∧ (pcClplaceDterm h).toNat ≤ 64 * 2 ^ 20 := by
    by_cases hzero : h = 0
    · subst hzero
      decide
    · rw [toNat_dterm hzero]
      omega
  exact {
    norm := toNat_norm h
    index := succ_lt_succ (tabIdx_lt h)
    diff := by rw [toNat_diff]; omega
    prod := toNat_prod h
    frac := toNat_frac h
    whole := toNat_whole h
    term := fun hne => by rw [toNat_dterm hne]; omega
    pos := hbounds.1
    le := hbounds.2 }

/-! ### The comparison -/

theorem toNat_weight_le (n : ClmapNode) : (pcClmapWeight n).toNat ≤ 65535 := by
  unfold pcClmapWeight
  split
  all_goals
    rw [BitVec.toNat_setWidth]
    omega

/-- `struct cand`, within the bounds that keep the cross products exact. -/
structure Cand where
  w : BitVec 32
  d : BitVec 64
  id : BitVec 16
  w_le : w.toNat ≤ 65535
  d_pos : 0 < d.toNat
  d_le : d.toNat ≤ 64 * 2 ^ 20

/-- A node as a candidate for a key. -/
def cand (kh : BitVec 64) (n : ClmapNode) : Cand where
  w := pcClmapWeight n
  d := pcClplaceDterm (pcClplaceMix kh n.addr n.clusterPort)
  id := n.nodeId
  w_le := toNat_weight_le n
  d_pos := (dtermExact _).pos
  d_le := (dtermExact _).le

/-- One side of the comparison. -/
def cross (w : BitVec 32) (d : BitVec 64) : BitVec 64 := w.setWidth 64 * d

def beats (a b : Cand) : Bool :=
  if cross a.w b.d ≠ cross b.w a.d then cross b.w a.d < cross a.w b.d else b.id < a.id

/-- **The cross products do not overflow.** -/
theorem toNat_cross (a b : Cand) : (cross a.w b.d).toNat = a.w.toNat * b.d.toNat := by
  have hprod := mul_le_mul a.w_le b.d_le
  rw [cross, BitVec.toNat_mul, BitVec.toNat_setWidth, mod_eq_of_lt (a := a.w.toNat) (by omega),
    mod_eq_of_lt (by omega)]

def Cand.score (c : Cand) : ℚ := c.w.toNat / c.d.toNat

/-- What candidates are ranked by: the score, then the id. -/
def Cand.key (c : Cand) : ℚ ×ₗ ℕ := toLex (c.score, c.id.toNat)

/-- Scores are compared by cross products. -/
theorem score_lt_iff (a b : Cand) :
    b.score < a.score ↔ (cross b.w a.d).toNat < (cross a.w b.d).toNat := by
  have ha : (0 : ℚ) < a.d.toNat := by exact_mod_cast a.d_pos
  have hb : (0 : ℚ) < b.d.toNat := by exact_mod_cast b.d_pos
  rw [toNat_cross, toNat_cross, Cand.score, Cand.score, div_lt_div_iff₀ hb ha]
  exact_mod_cast Iff.rfl

/-- **`beats` compares the scores, then the ids.** -/
theorem beats_iff (a b : Cand) : beats a b = true ↔ b.key < a.key := by
  rw [Cand.key, Cand.key, Prod.Lex.toLex_lt_toLex, score_lt_iff]
  unfold beats
  by_cases heq : cross a.w b.d = cross b.w a.d
  · have hscore : b.score = a.score := by
      apply le_antisymm
      · exact not_lt.mp fun h => absurd ((score_lt_iff b a).mp h) (by rw [heq]; exact lt_irrefl _)
      · exact not_lt.mp fun h => absurd ((score_lt_iff a b).mp h) (by rw [heq]; exact lt_irrefl _)
    simp [heq, hscore, BitVec.lt_def]
  · have hne : b.score ≠ a.score := by
      intro hscore
      have h1 := (score_lt_iff a b).not.mp (by rw [hscore]; exact lt_irrefl _)
      have h2 := (score_lt_iff b a).not.mp (by rw [hscore]; exact lt_irrefl _)
      exact heq (BitVec.eq_of_toNat_eq (by omega))
    simp [heq, hne, BitVec.lt_def]

end Perfcached.Cluster
