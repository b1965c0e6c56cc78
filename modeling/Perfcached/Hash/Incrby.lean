import Mathlib
import Perfcached.Hash.Edit
import Perfcached.Lib.Decimal

/-!
# Perfcached.Hash.Incrby

HINCRBY on the packed record: `strict_ll` and `pc_hr_incrby` (`src/hashrec.c`).

`strict_ll` takes the texts of `Denotes` and no others (`strictLl_iff`), that of the least 64-bit
integer included, and the sum is stored as such a text again.

No step of the source leaves its type: the digit loop stops at `lim` before it multiplies, and the
test for the overflow subtracts towards 0.
-/

namespace Perfcached.Hash

open Bytes Buffer List Option Decimal

def pcHrEOvf : Int := -4

/-! ### The source's functions -/

/-- The digit loop of `strict_ll`. -/
def strictLlLoop (lim : Nat) : Nat → List Byte → Option Nat
  | v, [] => some v
  | v, c :: s =>
    if c.toNat < 48 ∨ c.toNat > 57 then none
    else if v > (lim - (c.toNat - 48)) / 10 then none
    else strictLlLoop lim (v * 10 + (c.toNat - 48)) s

def strictLlLim (neg : Bool) : Nat := if neg then 2 ^ 63 else 2 ^ 63 - 1

/-- `strict_ll` behind the sign. -/
def strictLlDigits (neg : Bool) (ds : List Byte) : Option Int :=
  if ds = [] ∨ ds.head? = some 48 ∧ ds.length > 1 then none
  else (strictLlLoop (strictLlLim neg) 0 ds).map (signed neg)

def strictLl (s : List Byte) : Option Int :=
  if s.length > 20 then none
  else if s.head? = some 45 then strictLlDigits true s.tail
  else strictLlDigits false s

/-- What `pc_hr_incrby` answers: the new length or an error, `*result` where it is written, and
the caller's buffer. -/
structure Sum where
  ret : Int
  result : Option Int
  out : List Byte

def fieldText (r field : List Byte) : Option (List Byte) :=
  (pcHrGet r field).map fun v => slice r v.1 v.2

def pcHrIncrby (r field : List Byte) (inc : Int) (out : List Byte) (cap : Nat) : Sum :=
  match (fieldText r field).elim (some 0) strictLl with
  | none => ⟨pcHrENum, none, out⟩
  | some cur =>
    if inc > 0 ∧ cur > 2 ^ 63 - 1 - inc ∨ inc < 0 ∧ cur < -2 ^ 63 - inc then ⟨pcHrEOvf, none, out⟩
    else
      let e := pcHrSet r field (intText (cur + inc)) false out cap
      ⟨e.ret, some (cur + inc), e.out⟩

/-! ### The texts of 64-bit integers -/

/-- Digits without a leading zero, except 0 itself, that with the sign stand for a 64-bit
integer. -/
def Digits (neg : Bool) (ds : List Byte) (x : Int) : Prop :=
  ds ≠ [] ∧ (∀ d ∈ ds, isDigit d = true) ∧ (ds.head? = some 48 → ds.length = 1) ∧
    x = signed neg (value ds) ∧ Signed64 x

/-- The text is a minus, or none, and such digits. -/
def Denotes (s : List Byte) (x : Int) : Prop :=
  ∃ neg ds, s = (if neg then [45] else []) ++ ds ∧ Digits neg ds x

/-- A test by division, digit by digit, refuses the values above the limit and no others. -/
theorem strictLlLoop_iff {lim v n : Nat} (hlim : 9 ≤ lim) (hv : v ≤ lim) (ds : List Byte) :
    strictLlLoop lim v ds = some n ↔
      (∀ d ∈ ds, isDigit d = true) ∧ valueFrom v ds = n ∧ n ≤ lim := by
  induction ds generalizing v with
  | nil =>
    rw [strictLlLoop, some.injEq]
    constructor
    · rintro rfl
      exact ⟨forall_mem_nil _, rfl, hv⟩
    · exact fun h => h.2.1
  | cons c s ih =>
    have hge := le_valueFrom (v * 10 + (c.toNat - 48)) s
    rw [forall_mem_cons, isDigit, decide_eq_true_eq, valueFrom, foldl_cons, ← valueFrom,
      strictLlLoop]
    split_ifs with hdigit hbig
    · exact iff_of_false (by simp) (by omega)
    · exact iff_of_false (by simp) (by omega)
    · rw [ih (by omega)]
      exact and_congr_left' ⟨fun hs => ⟨by omega, hs⟩, And.right⟩

variable {neg : Bool} {ds : List Byte} {x : Int}

theorem signed64_iff (neg : Bool) (n : Nat) : Signed64 (signed neg n) ↔ n ≤ strictLlLim neg := by
  unfold Signed64 signed strictLlLim
  cases neg with
  | false =>
    simp only [Bool.false_eq_true, if_false]
    omega
  | true =>
    simp only [if_true]
    omega

theorem strictLlDigits_iff : strictLlDigits neg ds = some x ↔ Digits neg ds x := by
  have hlim : 9 ≤ strictLlLim neg := by
    cases neg <;> decide
  have hloop := fun n => strictLlLoop_iff (n := n) hlim (Nat.zero_le _) ds
  unfold strictLlDigits Digits
  split
  · rename_i h
    refine iff_of_false nofun ?_
    rintro ⟨hne, -, hzero, -⟩
    obtain h | ⟨h0, hlong⟩ := h
    · exact hne h
    · exact hlong.ne' (hzero h0)
  · rename_i h
    rw [not_or, not_and, not_lt] at h
    have hpos := length_pos_iff.mpr h.1
    rw [map_eq_some_iff]
    constructor
    · rintro ⟨n, hn, rfl⟩
      obtain ⟨hds, rfl, hn⟩ := (hloop n).mp hn
      exact ⟨h.1, hds, fun h0 => (h.2 h0).antisymm hpos, rfl, (signed64_iff _ _).mpr hn⟩
    · rintro ⟨-, hds, -, rfl, hx⟩
      exact ⟨_, (hloop _).mpr ⟨hds, rfl, (signed64_iff _ _).mp hx⟩, rfl⟩

/-- Digits without a leading zero are at most 19. -/
theorem Digits.length_le (h : Digits neg ds x) : ds.length ≤ 19 := by
  obtain ⟨hne, hds, hzero, rfl, hx⟩ := h
  by_contra hlong
  obtain ⟨d, ds, rfl⟩ := exists_cons_of_ne_nil hne
  rw [length_cons] at hlong hzero
  have hd := hds d mem_cons_self
  rw [isDigit, decide_eq_true_eq] at hd
  have hd0 : d.toNat ≠ 48 := by
    intro h48
    have := hzero (congrArg some (BitVec.eq_of_toNat_eq h48))
    omega
  have hval : 1 * 10 ^ 19 ≤ value (d :: ds) := by
    refine le_trans ?_ (mul_pow_le_valueFrom (0 * 10 + (d.toNat - 48)) ds)
    exact Nat.mul_le_mul (by omega) (Nat.pow_le_pow_right (by omega) (by omega))
  have hlim : strictLlLim neg ≤ 2 ^ 63 := by
    cases neg <;> decide
  have := (signed64_iff _ _).mp hx
  omega

theorem strictLl_iff {s : List Byte} : strictLl s = some x ↔ Denotes s x := by
  unfold strictLl
  constructor
  · intro h
    split_ifs at h with hlen hneg
    · obtain ⟨ds, rfl⟩ := head?_eq_some_iff.mp hneg
      exact ⟨true, ds, rfl, strictLlDigits_iff.mp h⟩
    · exact ⟨false, s, rfl, strictLlDigits_iff.mp h⟩
  · rintro ⟨neg, ds, rfl, h⟩
    have hlen := h.length_le
    cases neg with
    | true =>
      rw [if_neg (by simp; omega), if_pos (by simp)]
      exact strictLlDigits_iff.mpr h
    | false =>
      obtain ⟨d, ds, rfl⟩ := exists_cons_of_ne_nil h.1
      have hd := h.2.1 d mem_cons_self
      have hminus : d ≠ 45 := by
        rintro rfl
        cases hd
      rw [if_neg (by simp; simp at hlen; omega), if_neg (by simpa using hminus)]
      exact strictLlDigits_iff.mpr h

theorem denotes_intText (hx : Signed64 x) : Denotes (intText x) x := by
  refine ⟨decide (x < 0), natText x.natAbs, by simp [intText], natText_ne_nil _,
    isDigit_natText _, head_natText, ?_, hx⟩
  simp only [value_natText, signed, decide_eq_true_eq]
  split_ifs
  · omega
  · omega

/-! ### The increment -/

/-- The value that the field counts as. -/
def Counts (r field : List Byte) (cur : Int) : Prop :=
  (fieldText r field).elim (cur = 0) (Denotes · cur)

variable {r field : List Byte} {inc cur : Int}

theorem counts_iff :
    Counts r field cur ↔ (fieldText r field).elim (some 0) strictLl = some cur := by
  unfold Counts
  cases fieldText r field with
  | none => exact ⟨fun h => congrArg some h.symm, fun h => (some.inj h).symm⟩
  | some t => exact strictLl_iff.symm

theorem Counts.signed64 (h : Counts r field cur) : Signed64 cur := by
  unfold Counts at h
  cases ht : fieldText r field with
  | none =>
    rw [ht] at h
    obtain rfl : cur = 0 := h
    decide
  | some t =>
    rw [ht] at h
    obtain ⟨-, -, -, -, -, -, -, hx⟩ := h
    exact hx

/-- The field counts as nothing exactly if it has a text that stands for nothing. -/
theorem not_counts_iff :
    (∀ cur, ¬ Counts r field cur) ↔ ∃ t ∈ fieldText r field, ∀ x, ¬ Denotes t x := by
  unfold Counts
  cases fieldText r field with
  | none | some => simp

theorem pcHrIncrby_num (h : ∀ cur, ¬ Counts r field cur) (out : List Byte) (cap : Nat) :
    pcHrIncrby r field inc out cap = ⟨pcHrENum, none, out⟩ := by
  have hnone : (fieldText r field).elim (some 0) strictLl = none :=
    eq_none_iff_forall_ne_some.mpr fun cur hcur => h cur (counts_iff.mpr hcur)
  rw [pcHrIncrby, hnone]

theorem pcHrIncrby_counts (h : Counts r field cur) (hinc : Signed64 inc) (out : List Byte)
    (cap : Nat) : pcHrIncrby r field inc out cap =
      if Signed64 (cur + inc) then
        let e := pcHrSet r field (intText (cur + inc)) false out cap
        ⟨e.ret, some (cur + inc), e.out⟩
      else ⟨pcHrEOvf, none, out⟩ := by
  have hcur := h.signed64
  rw [pcHrIncrby, counts_iff.mp h]
  unfold Signed64 at *
  dsimp only
  split_ifs
  · omega
  · rfl
  · rfl
  · omega

variable {es : List (List Byte × List Byte)} (hes : Fits es)
include hes

/-- The two errors of the sum are none of the store's. -/
theorem ret_pcHrSet (field val out : List Byte) (cap : Nat) :
    (pcHrSet (record es) field val false out cap).ret ≠ pcHrENum ∧
      (pcHrSet (record es) field val false out cap).ret ≠ pcHrEOvf := by
  rcases pcHrSet_cases (.inl rfl) hes field val out cap with ⟨h, -⟩ | ⟨h, -⟩ | ⟨h, -⟩
  · rw [h]
    decide
  · rw [h]
    decide
  · unfold pcHrENum pcHrEOvf
    omega

theorem ret_ne_num (h : Counts (record es) field cur) (hinc : Signed64 inc) (out : List Byte)
    (cap : Nat) : (pcHrIncrby (record es) field inc out cap).ret ≠ pcHrENum := by
  rw [pcHrIncrby_counts h hinc]
  split_ifs
  · exact (ret_pcHrSet hes ..).1
  · exact show pcHrEOvf ≠ pcHrENum by decide

omit hes

/-- **HINCRBY is exact.** Not a number is answered exactly if the field has a text that stands for
no 64-bit integer. Otherwise an overflow is answered exactly if the sum leaves 64 bits. Otherwise
the sum is reported and, unless the field or the size is refused, the field has its text, a later
call accepts that, and every other field is as it was. -/
theorem hincrby_exact {r : List Byte} {cnt : Nat} (hr : pcHrValid r = some cnt)
    (field : List Byte) {inc : Int} (hinc : Signed64 inc) (out : List Byte) (cap : Nat) :
    let a := pcHrIncrby r field inc out cap
    (a.ret = pcHrENum ↔ ∃ t ∈ fieldText r field, ∀ x, ¬ Denotes t x) ∧
    ∀ cur, Counts r field cur →
      (a.ret = pcHrEOvf ↔ ¬ Signed64 (cur + inc)) ∧
      (Signed64 (cur + inc) → a.result = some (cur + inc) ∧
        let es := OrderedMap.set (pcHrIter r) field (intText (cur + inc))
        let new := a.out.take a.ret.toNat
        (a.ret = pcHrEArg ∧ (field.length = 0 ∨ field.length > pcHrFieldMax) ∨
        a.ret = pcHrESize ∧ (size es > pcHrMax ∨ size es > cap) ∨
        0 ≤ a.ret ∧ fieldText new field = some (intText (cur + inc)) ∧
          Counts new field (cur + inc) ∧
          (∀ inc' out' cap', Signed64 inc' → (pcHrIncrby new field inc' out' cap').ret ≠ pcHrENum) ∧
          ∀ f ≠ field, fieldText new f = fieldText r f)) := by
  obtain ⟨es, hes, rfl, rfl⟩ := pcHrValid_iff.mp hr
  dsimp only
  rw [pcHrIter_record hes, ← not_counts_iff]
  refine ⟨⟨fun hret cur hcur => ret_ne_num hes hcur hinc out cap hret,
    fun h => by rw [pcHrIncrby_num h]⟩, fun cur hcur => ?_⟩
  rw [pcHrIncrby_counts hcur hinc]
  split_ifs with hsum
  · refine ⟨iff_of_false (ret_pcHrSet hes ..).2 (not_not.mpr hsum), fun _ => ⟨rfl, ?_⟩⟩
    refine (pcHrSet_cases (.inl rfl) hes field (intText (cur + inc)) out cap).imp_right
      (Or.imp_right fun ⟨hret, hfits, hnew⟩ => ⟨hret, ?_⟩)
    dsimp only at hnew ⊢
    rw [hnew]
    have htext : ∀ f, fieldText (record (OrderedMap.set es field (intText (cur + inc)))) f =
        if f = field then some (intText (cur + inc)) else fieldText (record es) f := by
      intro f
      rw [fieldText, pcHrGet_eq (.inl rfl) hfits, OrderedMap.lookup_set, fieldText,
        pcHrGet_eq (.inl rfl) hes]
    have hself := (htext field).trans (if_pos rfl)
    have hcounts : Counts (record (OrderedMap.set es field (intText (cur + inc)))) field
        (cur + inc) := by
      unfold Counts
      rw [hself]
      exact denotes_intText hsum
    exact ⟨hself, hcounts, fun inc' out' cap' hinc' => ret_ne_num hfits hcounts hinc' out' cap',
      fun f hf => (htext f).trans (if_neg hf)⟩
  · exact ⟨iff_of_true rfl hsum, fun h => absurd h hsum⟩

/-- HINCRBY by -2 of the text `2`, which is read and stored as such. -/
theorem hincrby_exact_zero :
    Counts (record [([97], [50])]) [97] 2 ∧
      (pcHrIncrby (record [([97], [50])]) [97] (-2) (replicate 32 0) 32).result = some 0 := by
  have hcounts : Counts (record [([97], [50])]) [97] 2 := counts_iff.mpr (by decide)
  have hexact := @hincrby_exact (record [([97], [50])]) 1 (by decide) [97] (-2) (by decide)
    (replicate 32 0) 32
  exact ⟨hcounts, ((hexact.2 2 hcounts).2 (by decide)).1⟩

end Perfcached.Hash
