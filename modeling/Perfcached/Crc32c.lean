import Mathlib.Tactic.IntervalCases
import Perfcached.Lib.Bytes

/-!
# Perfcached.Crc32c

The checksum of the log, the snapshot and recovery (`src/crc32c.c`): CRC32C by
slice-by-8 tables.

`crc32cSw` is translated as the source computes it, eight bytes at a time with a
bytewise tail. The source picks the CPU's own CRC32C instruction where there is
one; that instruction computes the same function, so `pcCrc32c` is `crc32cSw`.

The one fact the file formats rest on is `pcCrc32c_append`: a checksum fed piece
by piece is the checksum of the whole, wherever the pieces are cut. It goes
through the bytewise fold (`crc32cSw_eq_foldl`), because the slice loop cuts a
string at multiples of eight *of each call*. The slice step itself is eight
bytewise steps by linearity: `byteStep` is additive for exclusive or, and a
table of index `j` is `byteStep` iterated `j + 1` times.
-/

namespace Perfcached

open Bytes Nat BitVec

namespace Crc

/-- One bit of the reflected Castagnoli division. -/
def bitStep (c : BitVec 32) : BitVec 32 :=
  (c >>> 1) ^^^ (0x82F63B78#32 &&& (0#32 - (c &&& 1#32)))

/-- `crc_tab[0][i]`: eight bit steps from the index. -/
def crcTab0 (i : BitVec 32) : BitVec 32 :=
  bitStep (bitStep (bitStep (bitStep (bitStep (bitStep (bitStep (bitStep i)))))))

def crcTab : Nat → BitVec 32 → BitVec 32
  | 0, i => crcTab0 i
  | j + 1, i => (crcTab j i >>> 8) ^^^ crcTab0 (crcTab j i &&& 0xFF#32)

/-- A byte as the 32-bit operand it is promoted to. -/
def ext (b : Byte) : BitVec 32 := b.setWidth 32

/-- The tail loop's body: one byte into the running remainder. -/
def crcByte (crc : BitVec 32) (b : Byte) : BitVec 32 :=
  (crc >>> 8) ^^^ crcTab0 ((crc ^^^ ext b) &&& 0xFF#32)

/-- Four bytes loaded as a little-endian word (the source's `memcpy`). -/
def word (a b c d : Byte) : BitVec 32 :=
  ext a ^^^ (ext b <<< 8) ^^^ (ext c <<< 16) ^^^ (ext d <<< 24)

/-- The body of the eight-byte loop. -/
def slice (crc : BitVec 32) (a b c d e f g h : Byte) : BitVec 32 :=
  let lo := word a b c d ^^^ crc
  let hi := word e f g h
  crcTab 7 (lo &&& 0xFF#32) ^^^ crcTab 6 ((lo >>> 8) &&& 0xFF#32) ^^^
    crcTab 5 ((lo >>> 16) &&& 0xFF#32) ^^^ crcTab 4 (lo >>> 24) ^^^
    crcTab 3 (hi &&& 0xFF#32) ^^^ crcTab 2 ((hi >>> 8) &&& 0xFF#32) ^^^
    crcTab 1 ((hi >>> 16) &&& 0xFF#32) ^^^ crcTab 0 (hi >>> 24)

/-- The two loops of `crc32c_sw`: slices of eight, then single bytes. -/
def sliceLoop (crc : BitVec 32) : List Byte → BitVec 32
  | a :: b :: c :: d :: e :: f :: g :: h :: rest =>
    sliceLoop (slice crc a b c d e f g h) rest
  | p => p.foldl crcByte crc

/-! ### Linearity of the division -/

theorem mask_eq (c : BitVec 32) :
    0#32 - (c &&& 1#32) = if c.getLsbD 0 then allOnes 32 else 0#32 := by
  rw [and_one_eq_setWidth_ofBool_getLsbD]
  cases c.getLsbD 0 <;> rfl

theorem bitStep_xor (x y : BitVec 32) : bitStep (x ^^^ y) = bitStep x ^^^ bitStep y := by
  simp only [bitStep, mask_eq, getLsbD_xor, ushiftRight_xor_distrib]
  cases hx : x.getLsbD 0 <;> cases hy : y.getLsbD 0
  all_goals
    ext i hi
    simp only [getElem_xor, Bool.bne_false, Bool.bne_true, Bool.not_false, Bool.not_true,
      if_true, if_false, Bool.false_eq_true, BitVec.and_zero, BitVec.and_allOnes,
      BitVec.getElem_zero]
  -- both low bits set: the polynomial enters twice and cancels
  all_goals
    cases (x >>> 1)[i] <;> cases (y >>> 1)[i] <;> cases (0x82F63B78#32)[i] <;> rfl

theorem crcTab0_xor (x y : BitVec 32) : crcTab0 (x ^^^ y) = crcTab0 x ^^^ crcTab0 y := by
  simp only [crcTab0, bitStep_xor]

/-- One byte's worth of division applied to a whole remainder. -/
def byteStep (c : BitVec 32) : BitVec 32 :=
  (c >>> 8) ^^^ crcTab0 (c &&& 0xFF#32)

theorem xor_and_distrib (x y m : BitVec 32) : (x ^^^ y) &&& m = (x &&& m) ^^^ (y &&& m) := by
  ext i hi
  simp only [getElem_xor, getElem_and]
  cases x[i] <;> cases y[i] <;> cases m[i] <;> rfl

theorem byteStep_xor (x y : BitVec 32) : byteStep (x ^^^ y) = byteStep x ^^^ byteStep y := by
  simp only [byteStep, ushiftRight_xor_distrib, xor_and_distrib, crcTab0_xor]
  ac_rfl

/-! ### A slice is eight bytewise steps -/

theorem crcTab0_zero : crcTab0 0#32 = 0#32 := by decide

theorem crcTab_succ (j : Nat) (i : BitVec 32) : crcTab (j + 1) i = byteStep (crcTab j i) := rfl

theorem ext_shift (b : Byte) : ext b >>> 8 = 0#32 := by
  revert b; decide

theorem crcByte_eq (crc : BitVec 32) (b : Byte) : crcByte crc b = byteStep (crc ^^^ ext b) := by
  rw [crcByte, byteStep, BitVec.ushiftRight_xor_distrib, ext_shift, BitVec.xor_zero]

theorem byteStep_of_low_zero {x y : BitVec 32} (hs : x >>> 8 = y) (hm : x &&& 0xFF#32 = 0#32) :
    byteStep x = y := by
  rw [byteStep, hs, hm, crcTab0_zero, BitVec.xor_zero]

theorem byteStep_shift (b : Byte) : byteStep (ext b <<< 8) = ext b ∧
    byteStep (ext b <<< 16) = ext b <<< 8 ∧ byteStep (ext b <<< 24) = ext b <<< 16 := by
  refine ⟨?_, ?_, ?_⟩ <;> exact byteStep_of_low_zero (by revert b; decide) (by revert b; decide)

/-- Four bytewise steps are four `byteStep`s of the remainder with the loaded
word added in. -/
theorem crcByte_four (crc : BitVec 32) (a b c d : Byte) :
    crcByte (crcByte (crcByte (crcByte crc a) b) c) d =
      byteStep (byteStep (byteStep (byteStep (word a b c d ^^^ crc)))) := by
  simp only [crcByte_eq, word, byteStep_xor, byteStep_shift]
  ac_rfl

/-- Four `byteStep`s of a word, read off the first four tables. -/
theorem byteStep_four (w : BitVec 32) : byteStep (byteStep (byteStep (byteStep w))) =
      crcTab 3 (w &&& 0xFF#32) ^^^ crcTab 2 ((w >>> 8) &&& 0xFF#32) ^^^
        crcTab 1 ((w >>> 16) &&& 0xFF#32) ^^^ crcTab 0 (w >>> 24) := by
  have h0 : byteStep w = (w >>> 8) ^^^ crcTab 0 (w &&& 0xFF#32) := rfl
  have h8 : byteStep (w >>> 8) = (w >>> 16) ^^^ crcTab 0 ((w >>> 8) &&& 0xFF#32) := by
    rw [byteStep, ← BitVec.shiftRight_add]; rfl
  have h16 : byteStep (w >>> 16) = (w >>> 24) ^^^ crcTab 0 ((w >>> 16) &&& 0xFF#32) := by
    rw [byteStep, ← BitVec.shiftRight_add]; rfl
  -- the last shift leaves nothing, and the top byte needs no mask
  have h24 : byteStep (w >>> 24) = crcTab 0 (w >>> 24) := by
    have hmask : (w >>> 24) &&& 0xFF#32 = w >>> 24 := by
      apply eq_of_toNat_eq
      have hlt : w.toNat >>> 24 < 2 ^ 8 := by
        rw [shiftRight_eq_div_pow]
        omega
      rw [toNat_and, toNat_ushiftRight]
      exact and_two_pow_sub_one_of_lt_two_pow hlt
    have hgone : w >>> 24 >>> 8 = 0#32 := by
      rw [← BitVec.shiftRight_add]
      exact ushiftRight_eq_zero (by decide)
    rw [byteStep, hmask, hgone, BitVec.zero_xor]
    rfl
  simp only [h0, h8, h16, h24, byteStep_xor, crcTab_succ]
  ac_rfl

theorem slice_eq (crc : BitVec 32) (a b c d e f g h : Byte) :
    slice crc a b c d e f g h = [a, b, c, d, e, f, g, h].foldl crcByte crc := by
  have hlo := byteStep_four (word a b c d ^^^ crc)
  simp only [List.foldl_cons, List.foldl_nil]
  rw [crcByte_four crc a b c d, crcByte_four _ e f g h, hlo]
  simp only [byteStep_xor, byteStep_four (word e f g h), ← crcTab_succ, slice]
  ac_rfl

theorem bitStep_of_even {c : BitVec 32} (h : c.getLsbD 0 = false) : bitStep c = c >>> 1 := by
  rw [bitStep, mask_eq, h]
  simp

/-- Eight bit steps only move the high part down. -/
theorem crcTab0_high (c : BitVec 32) : crcTab0 (c <<< 8) = c <<< 8 >>> 8 := by
  simp [crcTab0, bitStep_of_even, ← BitVec.shiftRight_add]

/-- A bytewise step is eight bit steps of the whole remainder. -/
theorem byteStep_eq (c : BitVec 32) : byteStep c = crcTab0 c := by
  have hsplit : c = (c >>> 8) <<< 8 ^^^ (c &&& 0xFF#32) := by
    ext i hi
    interval_cases i <;> simp
  have hhigh : c >>> 8 <<< 8 >>> 8 = c >>> 8 := by
    ext i hi
    interval_cases i <;> simp
  conv_rhs => rw [hsplit, crcTab0_xor, crcTab0_high, hhigh]
  rfl

theorem sliceLoop_eq (crc : BitVec 32) (p : List Byte) : sliceLoop crc p = p.foldl crcByte crc := by
  fun_induction sliceLoop crc p with
  | case1 crc a b c d e f g h rest ih =>
    rw [ih, slice_eq]
    rfl
  | case2 => rfl

end Crc

def crc32cSw (crc : BitVec 32) (p : List Byte) : BitVec 32 :=
  ~~~ (Crc.sliceLoop (~~~ crc) p)

/-- `pc_crc32c`: the backend chosen once, all of which compute one function. -/
def pcCrc32c (init : BitVec 32) (buf : List Byte) : BitVec 32 :=
  crc32cSw init buf

/-- The slice loop computes the bytewise checksum. -/
theorem crc32cSw_eq_foldl (crc : BitVec 32) (p : List Byte) :
    crc32cSw crc p = ~~~ (p.foldl Crc.crcByte (~~~ crc)) := by
  rw [crc32cSw, Crc.sliceLoop_eq]

/-- A checksum fed piece by piece is the checksum of the whole. -/
theorem pcCrc32c_append (c : BitVec 32) (p q : List Byte) :
    pcCrc32c c (p ++ q) = pcCrc32c (pcCrc32c c p) q := by
  simp only [pcCrc32c, crc32cSw_eq_foldl, List.foldl_append, BitVec.not_not]

/-- The CRC-32C bit by bit: a byte is added to the remainder and eight bits are divided out. -/
def crc32cBits (crc : BitVec 32) (p : List Byte) : BitVec 32 :=
  ~~~ (p.foldl (fun c b => Crc.crcTab0 (c ^^^ Crc.ext b)) (~~~ crc))

/-- **The slice tables compute the CRC-32C**, of any bytes, from any start and in any pieces. -/
theorem crc32cSw_pieces (crc : BitVec 32) (pieces : List (List Byte)) :
    pieces.foldl crc32cSw crc = crc32cBits crc pieces.flatten := by
  have hbyte : Crc.crcByte = fun c b => Crc.crcTab0 (c ^^^ Crc.ext b) := by
    funext c b
    rw [Crc.crcByte_eq, Crc.byteStep_eq]
  induction pieces generalizing crc with
  | nil => simp [crc32cBits]
  | cons p pieces ih =>
    rw [List.foldl_cons, ih, crc32cSw_eq_foldl, hbyte]
    simp [crc32cBits, List.foldl_append]

example : pcCrc32c 0#32 [0x31, 0x32, 0x33, 0x34, 0x35, 0x36, 0x37, 0x38, 0x39] = 0xE3069283#32 := by
  decide +kernel

end Perfcached
