import Mathlib.Data.List.Infix
import Perfcached.Lib.Json
import Perfcached.Lib.Utf8

/-!
# Perfcached.Json.Writer

The JSON writer's strings of client bytes: `pc_jw_raw`, `pc_jw_raw_slow`, `pc_jw_str_utf8` and the
reader's `pc_json_unescape` (`src/json.c`, `src/json.h`).

`pc_jw_str_utf8` tells a sequence by the top bits of its bytes. That is enough for the length, and
for the two-byte sequences, whose lead byte it bounds from below; the second byte of a longer
sequence is not looked at beyond its top bits, so that overlong forms, surrogates and values above
U+10FFFF pass through (`strUtf8_passes_surrogate`). Every other text comes out as a JSON string in
UTF-8, and a text that is UTF-8 already is read back unchanged (`strUtf8_valid_iff`).
-/

namespace Perfcached.Json

open Bytes Utf8 List Option

/-! ### The writer's buffer -/

/-- `struct pc_jw`: what is written so far, and the size of the buffer. -/
structure Jw where
  out : List Byte
  cap : Nat
  overflow : Bool
  owned : Bool
  deriving DecidableEq

def jwHeapMax : Nat := 4 <<< 20

/-- The doubling loop of `pc_jw_raw_slow`; 64 rounds take any size past a `size_t`. -/
def grown (need : Nat) : Nat → Nat → Nat
  | 0, c => c
  | n + 1, c => if c < need then grown need n (c * 2) else c

/-- `pc_jw_raw` with `pc_jw_raw_slow`. `mem c` says whether `realloc` gives `c` bytes. -/
def Jw.raw (mem : Nat → Bool) (w : Jw) (s : List Byte) : Jw :=
  if w.out.length + s.length ≤ w.cap then { w with out := w.out ++ s }
  else if w.owned = false then { w with overflow := true }
  else
    let c := grown (w.out.length + s.length) 64 w.cap
    if c > jwHeapMax ∨ mem c = false then { w with overflow := true }
    else { w with out := w.out ++ s, cap := c }

variable {s : List Byte}

/-- What was written without an overflow is at the end of the buffer. -/
theorem Jw.out_raw {mem : Nat → Bool} {w : Jw} (h : (w.raw mem s).overflow = false) :
    w.overflow = false ∧ (w.raw mem s).out = w.out ++ s := by
  unfold Jw.raw at *
  dsimp only at *
  split_ifs at h ⊢ with h1 h2 h3
  · exact ⟨h, rfl⟩
  · exact ⟨h, rfl⟩

/-! ### A string of client bytes -/

def hx (n : Nat) : Byte := BitVec.ofNat 8 (if n < 10 then 0x30 + n else 0x57 + n)

/-- The first `n` bytes of `s` are there and have the top bits of a continuation byte. -/
def contAt : Nat → List Byte → Bool
  | 0, _ => true
  | _ + 1, [] => false
  | n + 1, b :: s => decide (b &&& 0xC0#8 = 0x80#8) && contAt n s

/-- The length of the sequence that starts with `c`, 0 for none. -/
def seqLen (c : Byte) (s : List Byte) : Nat :=
  if c &&& 0xE0#8 = 0xC0#8 ∧ 0xC2 ≤ c.toNat ∧ contAt 1 s = true then 2
  else if c &&& 0xF0#8 = 0xE0#8 ∧ contAt 2 s = true then 3
  else if c &&& 0xF8#8 = 0xF0#8 ∧ contAt 3 s = true then 4
  else 0

/-- `"\\ufffd"`. -/
def replacement : List Byte := [backslash, 0x75#8, 0x66#8, 0x66#8, 0x66#8, 0x64#8]

/-- One round of the loop of `pc_jw_str_utf8` at the byte `c`, with `s` behind it: what is written,
and how many bytes of `s` it covers. -/
def strRound (c : Byte) (s : List Byte) : List Byte × Nat :=
  if c = quote ∨ c = backslash then ([backslash, c], 0)
  else if c.toNat < 0x20 then
    ([backslash, 0x75#8, 0x30#8, 0x30#8, hx (c.toNat / 16), hx (c.toNat % 16)], 0)
  else if c.toNat < 0x80 then ([c], 0)
  else
    match seqLen c s with
    | 0 => (replacement, 0)
    | n + 1 => (c :: s.take n, n)

/-- The loop of `pc_jw_str_utf8`. A round takes a byte at least, so that the length of the text is
fuel enough. -/
def Jw.strLoop (mem : Nat → Bool) : Nat → Jw → List Byte → Jw
  | 0, w, _ => w
  | _ + 1, w, [] => w
  | n + 1, w, c :: s => strLoop mem n (w.raw mem (strRound c s).1) (s.drop (strRound c s).2)

def Jw.strUtf8 (mem : Nat → Bool) (w : Jw) (s : List Byte) : Jw :=
  (strLoop mem s.length (w.raw mem [quote]) s).raw mem [quote]

/-! ### Reading a string back -/

/-- One digit of `hex4`. -/
def hexVal (b : Byte) : Option Nat :=
  if 0x30 ≤ b.toNat ∧ b.toNat ≤ 0x39 then some (b.toNat - 0x30)
  else if 0x61 ≤ b.toNat ∧ b.toNat ≤ 0x66 then some (b.toNat - 0x61 + 10)
  else if 0x41 ≤ b.toNat ∧ b.toNat ≤ 0x46 then some (b.toNat - 0x41 + 10)
  else none

def hex4 (a b c d : Byte) : Option Nat := do
  let a ← hexVal a
  let b ← hexVal b
  let c ← hexVal c
  let d ← hexVal d
  return ((a * 16 + b) * 16 + c) * 16 + d

/-- What an escape of one letter stands for. -/
def shortEscape (e : Byte) : Option Byte :=
  if e = quote ∨ e = backslash ∨ e = 0x2F#8 then some e
  else if e = 0x62#8 then some 0x08#8
  else if e = 0x66#8 then some 0x0C#8
  else if e = 0x6E#8 then some 0x0A#8
  else if e = 0x72#8 then some 0x0D#8
  else if e = 0x74#8 then some 0x09#8
  else none

/-- The bytes of `\uXXXX`: each value of the basic plane by itself. -/
def encodeBmp (u : Nat) : List Byte :=
  if u < 0x80 then [BitVec.ofNat 8 u]
  else if u < 0x800 then [BitVec.ofNat 8 (0xC0 + u / 64), BitVec.ofNat 8 (0x80 + u % 64)]
  else
    [BitVec.ofNat 8 (0xE0 + u / 4096), BitVec.ofNat 8 (0x80 + u / 64 % 64),
      BitVec.ofNat 8 (0x80 + u % 64)]

/-- The bound every write of `pc_json_unescape` is held to. -/
def putWithin (outcap : Nat) (out bytes : List Byte) : Option (List Byte) :=
  if out.length + bytes.length > outcap then none else some (out ++ bytes)

/-- `pc_json_unescape` from where `out` is written. -/
def unescapeFrom (outcap : Nat) : List Byte → List Byte → Option (List Byte)
  | out, [] => some out
  | out, c :: s =>
    if c ≠ backslash then (putWithin outcap out [c]).bind (unescapeFrom outcap · s)
    else
      match s with
      | [] => none
      | e :: s =>
        if e = 0x75#8 then
          match s with
          | a :: b :: c :: d :: s =>
            (hex4 a b c d).bind fun u =>
              (putWithin outcap out (encodeBmp u)).bind (unescapeFrom outcap · s)
          | _ => none
        else
          (shortEscape e).bind fun b =>
            (putWithin outcap out [b]).bind (unescapeFrom outcap · s)

/-- `pc_json_unescape` of a string token's text. -/
def jsonUnescape (outcap : Nat) (s : List Byte) : Option (List Byte) := unescapeFrom outcap [] s

/-- The reader takes `body` for `s`, whatever is around it. -/
def Reads (body s : List Byte) : Prop :=
  ∀ outcap out rest, out.length + s.length ≤ outcap →
    unescapeFrom outcap out (body ++ rest) = unescapeFrom outcap (out ++ s) rest

theorem putWithin_of_le {outcap : Nat} {out bytes : List Byte}
    (h : out.length + bytes.length ≤ outcap) :
    putWithin outcap out bytes = some (out ++ bytes) := by
  unfold putWithin
  rw [if_neg (by omega)]

theorem reads_nil : Reads [] [] := by
  intro outcap out rest _
  simp

theorem Reads.append {b₁ s₁ b₂ s₂ : List Byte} (h₁ : Reads b₁ s₁) (h₂ : Reads b₂ s₂) :
    Reads (b₁ ++ b₂) (s₁ ++ s₂) := by
  intro outcap out rest h
  rw [length_append] at h
  rw [append_assoc, h₁ outcap out _ (by omega), h₂ outcap _ rest (by simp; omega), append_assoc]

variable {b : Byte}

theorem reads_plain (hb : b ≠ backslash) : Reads [b] [b] := by
  intro outcap out rest h
  rw [singleton_append, unescapeFrom.eq_def]
  dsimp only
  rw [if_pos hb, putWithin_of_le h, bind_some]

theorem reads_plains (h : ∀ b ∈ s, b ≠ backslash) : Reads s s := by
  induction s with
  | nil => exact reads_nil
  | cons b s ih =>
    obtain ⟨hb, hs⟩ := forall_mem_cons.mp h
    exact (reads_plain hb).append (ih hs)

theorem reads_short {e : Byte} (he : e ≠ 0x75#8) (h : shortEscape e = some b) :
    Reads [backslash, e] [b] := by
  intro outcap out rest hle
  rw [cons_append, singleton_append, unescapeFrom.eq_def]
  dsimp only
  rw [if_neg (not_not.mpr rfl), if_neg he, h, bind_some, putWithin_of_le hle, bind_some]

variable {c : Byte}

theorem reads_unicode {a d : Byte} {u : Nat} (h : hex4 a b c d = some u) :
    Reads [backslash, 0x75#8, a, b, c, d] (encodeBmp u) := by
  intro outcap out rest hle
  simp only [cons_append, nil_append]
  rw [unescapeFrom.eq_def]
  dsimp only
  rw [if_neg (not_not.mpr rfl), if_pos rfl, h, bind_some, putWithin_of_le hle, bind_some]

/-- A reading of the whole text, with room for what it stands for. -/
theorem Reads.unescape {body : List Byte} (h : Reads body s) {outcap : Nat}
    (hcap : s.length ≤ outcap) : jsonUnescape outcap body = some s := by
  have := h outcap [] [] (by simpa using hcap)
  simpa [jsonUnescape, unescapeFrom] using this

/-! ### What the top bits say -/

/-- The four tests on the top bits of a byte, as ranges. -/
theorem topBits (b : Byte) : (b &&& 0xC0#8 = 0x80#8 ↔ 0x80 ≤ b.toNat ∧ b.toNat ≤ 0xBF) ∧
    (b &&& 0xE0#8 = 0xC0#8 ↔ 0xC0 ≤ b.toNat ∧ b.toNat ≤ 0xDF) ∧
    (b &&& 0xF0#8 = 0xE0#8 ↔ 0xE0 ≤ b.toNat ∧ b.toNat ≤ 0xEF) ∧
    (b &&& 0xF8#8 = 0xF0#8 ↔ 0xF0 ≤ b.toNat ∧ b.toNat ≤ 0xF7) := by
  revert b
  decide +kernel

theorem contAt_succ (n : Nat) (b : Byte) (s : List Byte) :
    contAt (n + 1) (b :: s) = true ↔ Tail b ∧ contAt n s = true := by
  simp [contAt, topBits, Tail]

theorem contAt_iff (n : Nat) (s : List Byte) :
    contAt n s = true ↔ n ≤ s.length ∧ ∀ b ∈ s.take n, Tail b := by
  induction n generalizing s with
  | zero => simp [contAt]
  | succ n ih =>
    cases s with
    | nil => simp [contAt]
    | cons b s =>
      rw [contAt_succ, ih]
      simp only [length_cons, take_succ_cons, forall_mem_cons]
      constructor
      · intro h
        exact ⟨by omega, h.1, h.2.2⟩
      · intro h
        exact ⟨h.2.1, by omega, h.2.2⟩

/-- A sequence of the right length that stands for no character in UTF-8: an overlong form, a
surrogate, or a value above U+10FFFF. -/
def Misencoded : List Byte → Prop
  | a :: b :: s =>
    (a.toNat = 0xE0 ∧ 0x80 ≤ b.toNat ∧ b.toNat ≤ 0x9F ∨
      a.toNat = 0xED ∧ 0xA0 ≤ b.toNat ∧ b.toNat ≤ 0xBF) ∧ contAt 1 s = true ∨
    (a.toNat = 0xF0 ∧ 0x80 ≤ b.toNat ∧ b.toNat ≤ 0x8F ∨
      a.toNat = 0xF4 ∧ 0x90 ≤ b.toNat ∧ b.toNat ≤ 0xBF ∨
      0xF5 ≤ a.toNat ∧ a.toNat ≤ 0xF7 ∧ 0x80 ≤ b.toNat ∧ b.toNat ≤ 0xBF) ∧ contAt 2 s = true
  | _ => False

instance : DecidablePred Misencoded := fun s => by
  unfold Misencoded
  split <;> infer_instance

/-! ### A round -/

theorem seqLen_cases (c : Byte) (s : List Byte) : seqLen c s = 0 ∨
    (seqLen c s = 2 ∧ 0xC2 ≤ c.toNat ∧ c.toNat ≤ 0xDF ∧ contAt 1 s = true) ∨
    (seqLen c s = 3 ∧ 0xE0 ≤ c.toNat ∧ c.toNat ≤ 0xEF ∧ contAt 2 s = true) ∨
    (seqLen c s = 4 ∧ 0xF0 ≤ c.toNat ∧ c.toNat ≤ 0xF7 ∧ contAt 3 s = true) := by
  unfold seqLen
  simp only [topBits]
  split_ifs with h2 h3 h4
  · exact .inr (.inl ⟨rfl, h2.2.1, h2.1.2, h2.2.2⟩)
  · exact .inr (.inr (.inl ⟨rfl, h3.1.1, h3.1.2, h3.2⟩))
  · exact .inr (.inr (.inr ⟨rfl, h4.1.1, h4.1.2, h4.2⟩))
  · exact .inl rfl

variable {n : Nat}

/-- A byte from 0x80 up that starts a sequence is written with it. -/
theorem strRound_seq (hc : 0x80 ≤ c.toNat) (hn : seqLen c s = n + 1) :
    strRound c s = (c :: s.take n, n) := by
  have hq : ¬(c = quote ∨ c = backslash) := by
    rintro (rfl | rfl) <;> simp at hc
  unfold strRound
  rw [if_neg hq, if_neg (by omega), if_neg (by omega), hn]

theorem strRound_none (hc : 0x80 ≤ c.toNat) (hn : seqLen c s = 0) :
    strRound c s = (replacement, 0) := by
  have hq : ¬(c = quote ∨ c = backslash) := by
    rintro (rfl | rfl) <;> simp at hc
  unfold strRound
  rw [if_neg hq, if_neg (by omega), if_neg (by omega), hn]

theorem strRound_cases (c : Byte) (s : List Byte) :
    (strRound c s = ([backslash, c], 0) ∧ (c = quote ∨ c = backslash)) ∨
    (strRound c s = ([backslash, 0x75#8, 0x30#8, 0x30#8, hx (c.toNat / 16), hx (c.toNat % 16)], 0) ∧
      c.toNat < 0x20) ∨
    (strRound c s = ([c], 0) ∧ Unescaped c ∧ c.toNat < 0x80) ∨
    (0x80 ≤ c.toNat ∧ strRound c s = (replacement, 0) ∧ seqLen c s = 0) ∨
    (0x80 ≤ c.toNat ∧ ∃ n, strRound c s = (c :: s.take n, n) ∧ seqLen c s = n + 1) := by
  by_cases hq : c = quote ∨ c = backslash
  · exact .inl ⟨by simp only [strRound, if_pos hq], hq⟩
  by_cases h20 : c.toNat < 0x20
  · exact .inr (.inl ⟨by simp only [strRound, if_neg hq, if_pos h20], h20⟩)
  by_cases h80 : c.toNat < 0x80
  · refine .inr (.inr (.inl ⟨by simp only [strRound, if_neg hq, if_neg h20, if_pos h80], ?_, h80⟩))
    exact ⟨by omega, fun h => hq (.inl h), fun h => hq (.inr h)⟩
  rcases hn : seqLen c s with _ | n
  · exact .inr (.inr (.inr (.inl ⟨by omega, strRound_none (by omega) hn, rfl⟩)))
  · exact .inr (.inr (.inr (.inr ⟨by omega, n, strRound_seq (by omega) hn, rfl⟩)))

theorem contAt_of_seqLen (h : seqLen c s = n + 1) : contAt n s = true := by
  rcases seqLen_cases c s with h0 | ⟨hn, -, -, ht⟩ | ⟨hn, -, -, ht⟩ | ⟨hn, -, -, ht⟩
  · omega
  · obtain rfl : n = 1 := by omega
    exact ht
  · obtain rfl : n = 2 := by omega
    exact ht
  · obtain rfl : n = 3 := by omega
    exact ht

theorem hexDig_hx (h : n < 16) : HexDig (hx n) := by
  revert h n
  decide

theorem hx_ascii (h : n < 16) : (hx n).toNat ≤ 0x7F := by
  revert h n
  decide

theorem Unescaped.of_high (h : 0x80 ≤ b.toNat) : Unescaped b := by
  refine ⟨by omega, ?_, ?_⟩
  all_goals
    rintro rfl
    simp at h

/-- A round writes characters of a JSON string. -/
theorem strRound_chars (c : Byte) (s : List Byte) : Chars (strRound c s).1 := by
  rcases strRound_cases c s with ⟨h, hq⟩ | ⟨h, hc⟩ | ⟨h, hc, -⟩ | ⟨-, h, -⟩ | ⟨hc, n, h, hn⟩
  · rw [h]
    refine .short ?_ .nil
    rcases hq with rfl | rfl <;> decide
  · rw [h]
    exact .unicode (by decide) (by decide) (hexDig_hx (by omega)) (hexDig_hx (by omega)) .nil
  · rw [h]
    exact .plain hc .nil
  · rw [h]
    exact .unicode (by decide) (by decide) (by decide) (by decide) .nil
  · rw [h]
    refine .plain (.of_high hc) (chars_of_unescaped fun b hb => ?_)
    exact .of_high (((contAt_iff n s).mp (contAt_of_seqLen hn)).2 b hb).1

/-- A sequence that is told by its length is a character, unless it is misencoded. -/
theorem char_of_seqLen (hn : seqLen c s = n + 1) (hs : ¬ Misencoded (c :: s)) :
    Char (c :: s.take n) := by
  rcases seqLen_cases c s with h0 | ⟨h2, hlo, hhi, ht⟩ | ⟨h3, hlo, hhi, ht⟩ | ⟨h4, hlo, hhi, ht⟩
  · omega
  · obtain rfl : n = 1 := by omega
    rcases s with _ | ⟨b, s⟩
    · simp [contAt] at ht
    · exact .two hlo hhi ((contAt_succ 0 b s).mp ht).1
  · obtain rfl : n = 2 := by omega
    rcases s with _ | ⟨b, _ | ⟨d, s⟩⟩
    · simp [contAt] at ht
    · simp [contAt] at ht
    · obtain ⟨hb, hd⟩ := (contAt_succ 1 b (d :: s)).mp ht
      refine .three ?_ ((contAt_succ 0 d s).mp hd).1
      simp only [Misencoded, hd, and_true, not_or] at hs
      simp only [Lead3, Tail] at *
      omega
  · obtain rfl : n = 3 := by omega
    rcases s with _ | ⟨b, _ | ⟨d, _ | ⟨e, s⟩⟩⟩
    · simp [contAt] at ht
    · simp [contAt] at ht
    · simp [contAt] at ht
    · obtain ⟨hb, hde⟩ := (contAt_succ 2 b (d :: e :: s)).mp ht
      obtain ⟨hd, he⟩ := (contAt_succ 1 d (e :: s)).mp hde
      refine .four ?_ hd ((contAt_succ 0 e s).mp he).1
      simp only [Misencoded, hde, and_true, not_or] at hs
      simp only [Lead4, Tail] at *
      omega

theorem octets_strRound_of_not (hs : ¬ Misencoded (c :: s)) : Octets (strRound c s).1 := by
  rcases strRound_cases c s with ⟨h, hq⟩ | ⟨h, hc⟩ | ⟨h, -, hc⟩ | ⟨-, h, -⟩ | ⟨-, n, h, hn⟩
  · rw [h]
    rcases hq with rfl | rfl <;> exact octets_ascii (by decide)
  · rw [h]
    refine octets_ascii fun b hb => ?_
    simp only [mem_cons, not_mem_nil, or_false] at hb
    rcases hb with rfl | rfl | rfl | rfl | rfl | rfl
    · decide
    · decide
    · decide
    · decide
    · exact hx_ascii (by omega)
    · exact hx_ascii (by omega)
  · rw [h]
    exact (Char.one (by omega)).octets
  · rw [h]
    exact octets_ascii (by decide)
  · rw [h]
    exact (char_of_seqLen hn hs).octets

theorem not_misencoded (h : c.toNat < 0xE0) : ¬ Misencoded (c :: s) := by
  cases s with
  | nil => exact id
  | cons b s =>
    unfold Misencoded
    omega

/-- A misencoded sequence is told by its length, and written as it is. -/
theorem strRound_misencoded (h : Misencoded (c :: b :: s)) :
    ∃ t, (strRound c (b :: s)).1 = c :: b :: t := by
  have hc : 0x80 ≤ c.toNat := by
    by_contra hlt
    exact not_misencoded (by omega) h
  have hlen : seqLen c (b :: s) ≠ 0 := by
    unfold seqLen
    simp only [topBits, contAt_succ, Tail]
    rcases h with ⟨hlead, ht⟩ | ⟨hlead, ht⟩
    · rw [if_neg (by omega), if_pos ⟨by omega, by omega, ht⟩]
      decide
    · rw [if_neg (by omega), if_neg (by omega), if_pos ⟨by omega, by omega, ht⟩]
      decide
  obtain ⟨n, hn⟩ := Nat.exists_eq_succ_of_ne_zero hlen
  rw [strRound_seq hc hn]
  cases n with
  | zero => rcases seqLen_cases c (b :: s) with h | ⟨h, -⟩ | ⟨h, -⟩ | ⟨h, -⟩ <;> omega
  | succ n => exact ⟨s.take n, rfl⟩

/-- What a round writes goes on as UTF-8 exactly if the sequence it is at is not misencoded. -/
theorem octets_strRound_iff (c : Byte) (s rest : List Byte) :
    Octets ((strRound c s).1 ++ rest) ↔ ¬ Misencoded (c :: s) ∧ Octets rest := by
  by_cases hm : Misencoded (c :: s)
  · refine iff_of_false (fun h => ?_) fun h => h.1 hm
    cases s with
    | nil => exact hm
    | cons b s =>
      obtain ⟨t, ht⟩ := strRound_misencoded hm
      rw [ht] at h
      have hpair := Octets.second h (by
        by_contra hlt
        exact not_misencoded (by omega) hm)
      unfold Misencoded at hm
      simp only [Lead3, Lead4, Tail] at hpair
      omega
  · rw [(octets_strRound_of_not hm).append_iff, and_iff_right hm]

theorem tail_of_strRound (c : Byte) (s : List Byte) : ∀ b ∈ s.take (strRound c s).2, Tail b := by
  rcases strRound_cases c s with ⟨h, -⟩ | ⟨h, -⟩ | ⟨h, -⟩ | ⟨-, h, -⟩ | ⟨-, n, h, hn⟩
  · simp [h]
  · simp [h]
  · simp [h]
  · simp [h]
  · rw [h]
    exact ((contAt_iff n s).mp (contAt_of_seqLen hn)).2

/-- No misencoded sequence begins with a tail. -/
theorem tails_drop_iff (h : ∀ b ∈ s.take n, Tail b) :
    (∀ t ∈ (s.drop n).tails, ¬ Misencoded t) ↔ ∀ t ∈ s.tails, ¬ Misencoded t := by
  induction n generalizing s with
  | zero => rfl
  | succ n ih =>
    cases s with
    | nil => simp
    | cons b s =>
      rw [take_succ_cons, forall_mem_cons] at h
      have hb : ¬ Misencoded (b :: s) := not_misencoded (Nat.lt_of_le_of_lt h.1.2 (by decide))
      rw [drop_succ_cons, ih h.2, tails_cons, forall_mem_cons, and_iff_right hb]

theorem hex4_control (h : n < 0x20) : hex4 0x30#8 0x30#8 (hx (n / 16)) (hx (n % 16)) = some n := by
  revert h n
  decide

theorem encodeBmp_ascii (c : Byte) (h : c.toNat < 0x80) : encodeBmp c.toNat = [c] := by
  rw [encodeBmp, if_pos h, BitVec.ofNat_toNat, BitVec.setWidth_eq]

variable {cs : List Byte}

/-- The sequence of a character has the character's length. -/
theorem seqLen_char (h : Char (c :: cs)) (hc : 0x80 ≤ c.toNat) (t : List Byte) :
    seqLen c (cs ++ t) = cs.length + 1 := by
  unfold seqLen
  simp only [topBits]
  cases h with
  | one h => omega
  | @two _ b hlo hhi hb =>
    rw [if_pos ⟨by omega, hlo, (contAt_succ 0 b t).mpr ⟨hb, rfl⟩⟩]
    rfl
  | @three _ b d hl hd =>
    have hlead := hl.lead
    rw [if_neg (by omega), if_pos ⟨hlead, (contAt_succ 1 b (d :: t)).mpr
      ⟨hl.tail, (contAt_succ 0 d t).mpr ⟨hd, rfl⟩⟩⟩]
    rfl
  | @four _ b d e hl hd he =>
    have hlead := hl.lead
    rw [if_neg (by omega), if_neg (by omega), if_pos ⟨by omega, (contAt_succ 2 b (d :: e :: t)).mpr
      ⟨hl.tail, (contAt_succ 1 d (e :: t)).mpr ⟨hd, (contAt_succ 0 e t).mpr ⟨he, rfl⟩⟩⟩⟩]
    rfl

theorem tail_of_char (h : Char (c :: cs)) : ∀ b ∈ cs, Tail b := by
  cases h with
  | one h => simp
  | two hlo hhi hb => simpa using hb
  | three hl hd => simpa using ⟨hl.tail, hd⟩
  | four hl hd he => simpa using ⟨hl.tail, hd, he⟩

/-- A round takes a whole character, and what it writes is read back as that character. -/
theorem strRound_char (h : Char (c :: cs)) (t : List Byte) :
    (strRound c (cs ++ t)).2 = cs.length ∧ Reads (strRound c (cs ++ t)).1 (c :: cs) := by
  by_cases hc : 0x80 ≤ c.toNat
  · rw [strRound_seq hc (seqLen_char h hc t)]
    refine ⟨rfl, ?_⟩
    rw [take_left]
    refine reads_plains fun b hb => ?_
    rcases mem_cons.mp hb with rfl | hb
    · exact (Unescaped.of_high hc).2.2
    · exact (Unescaped.of_high (tail_of_char h b hb).1).2.2
  · obtain rfl : cs = [] := by
      cases h with
      | one => rfl
      | two => omega
      | three hl | four hl => have := hl.lead; omega
    rcases strRound_cases c ([] ++ t) with ⟨h, hq⟩ | ⟨h, hc⟩ | ⟨h, hc, -⟩ | ⟨hc', -⟩ | ⟨hc', -⟩
    · rw [h]
      refine ⟨rfl, ?_⟩
      rcases hq with rfl | rfl <;> exact reads_short (by decide) (by decide)
    · rw [h]
      refine ⟨rfl, ?_⟩
      have := reads_unicode (hex4_control hc)
      rwa [encodeBmp_ascii c (by omega)] at this
    · rw [h]
      exact ⟨rfl, reads_plain hc.2.2⟩
    · exact absurd hc' hc
    · exact absurd hc' hc

/-! ### The whole string -/

/-- What the loop writes for `s`. The induction is on the fuel, a round at a time. -/
theorem strLoop_spec (mem : Nat → Bool) (n : Nat) (w : Jw) (s : List Byte) (hn : s.length ≤ n)
    (h : (w.strLoop mem n s).overflow = false) :
    w.overflow = false ∧ ∃ body, (w.strLoop mem n s).out = w.out ++ body ∧ Chars body ∧
      (∀ rest, Octets (body ++ rest) ↔ (∀ t ∈ s.tails, ¬ Misencoded t) ∧ Octets rest) ∧
      (Octets s → Reads body s) := by
  have hnil : ∀ rest, Octets ([] ++ rest) ↔
      (∀ t ∈ ([] : List Byte).tails, ¬ Misencoded t) ∧ Octets rest := by simp [Misencoded]
  induction n generalizing w s with
  | zero =>
    obtain rfl : s = [] := length_eq_zero_iff.mp (by omega)
    exact ⟨h, [], (append_nil _).symm, .nil, hnil, fun _ => reads_nil⟩
  | succ n ih =>
    cases s with
    | nil => exact ⟨h, [], (append_nil _).symm, .nil, hnil, fun _ => reads_nil⟩
    | cons c s =>
      rw [Jw.strLoop] at h ⊢
      have hlen : (s.drop (strRound c s).2).length ≤ n := by
        simp only [length_cons, length_drop] at *
        omega
      obtain ⟨hraw, body, hout, hchars, hoct, hreads⟩ := ih _ _ hlen h
      obtain ⟨hw, hout₁⟩ := Jw.out_raw hraw
      refine ⟨hw, (strRound c s).1 ++ body, ?_, (strRound_chars c s).append hchars, ?_, ?_⟩
      · rw [hout, hout₁, append_assoc]
      · intro rest
        rw [append_assoc, octets_strRound_iff, hoct, tails_drop_iff (tail_of_strRound c s),
          tails_cons, forall_mem_cons, and_assoc]
      · intro hs
        obtain ⟨cs, t, hchar, rfl, ht⟩ := hs.uncons
        obtain ⟨hdrop, hround⟩ := strRound_char hchar t
        rw [hdrop, drop_left] at hreads
        exact hround.append (hreads ht)

/-- **A string of client bytes comes out as JSON.** Where the writer has room, it adds a JSON string
literal; the literal is UTF-8 exactly if no sequence of the input is an overlong form, a surrogate
or above U+10FFFF, and an input that is UTF-8 is what the literal is read back as. -/
theorem strUtf8_valid_iff (mem : Nat → Bool) (w : Jw) (s : List Byte)
    (hroom : (w.strUtf8 mem s).overflow = false) :
    ∃ body, (w.strUtf8 mem s).out = w.out ++ (quote :: body ++ [quote]) ∧ Chars body ∧
      (Octets (quote :: body ++ [quote]) ↔ ∀ t ∈ s.tails, ¬ Misencoded t) ∧
      (Octets s → ∀ outcap, s.length ≤ outcap → jsonUnescape outcap body = some s) := by
  unfold Jw.strUtf8 at *
  obtain ⟨hloop, hlast⟩ := Jw.out_raw hroom
  obtain ⟨hopen, body, hbody, hchars, hoct, hreads⟩ := strLoop_spec mem s.length _ s le_rfl hloop
  obtain ⟨-, hfirst⟩ := Jw.out_raw hopen
  have hq : Octets [quote] := octets_ascii (by decide)
  refine ⟨body, ?_, hchars, ?_, ?_⟩
  · rw [hlast, hbody, hfirst]
    simp
  · rw [cons_append, ← singleton_append, hq.append_iff, hoct, and_iff_left hq]
  · intro h outcap hcap
    exact (hreads h).unescape hcap

/-- A buffer that has to grow, and a text with the character U+20AC, a quotation mark, a stray tail
and a sequence that is cut off. -/
theorem strUtf8_valid_iff_euro :
    let s := [0xE2#8, 0x82#8, 0xAC#8, quote, 0x80#8, 0xED#8, 0xA0#8]
    let w := Jw.strUtf8 (fun _ => true) ⟨[], 8, false, true⟩ s
    w.out.length = 25 ∧ ∃ body, w.out = [] ++ (quote :: body ++ [quote]) ∧ Chars body ∧
      (Octets (quote :: body ++ [quote]) ↔ ∀ t ∈ s.tails, ¬ Misencoded t) ∧
      (Octets s → ∀ outcap, s.length ≤ outcap → jsonUnescape outcap body = some s) :=
  ⟨by decide, strUtf8_valid_iff (fun _ => true) ⟨[], 8, false, true⟩ _ (by decide)⟩

/-- **The surrogate U+D800 is passed through.** The bytes ED A0 80 come out as they are, and what is
written is not UTF-8. -/
theorem strUtf8_passes_surrogate :
    let w := Jw.strUtf8 (fun _ => false) ⟨[], 64, false, false⟩ [0xED#8, 0xA0#8, 0x80#8]
    w.overflow = false ∧ w.out = [quote, 0xED#8, 0xA0#8, 0x80#8, quote] ∧ ¬ Octets w.out := by
  refine ⟨by decide, by decide, fun h => ?_⟩
  have hpair := ((octets_ascii (s := [quote]) (by decide)).append_iff.mp h).second (by decide)
  simp [Lead3, Lead4, Tail] at hpair

end Perfcached.Json
