import Perfcached.Lib.Bytes

/-!
# Perfcached.Lib.Utf8

UTF-8 as RFC 3629 section 4 has it: the syntax of one character, byte by byte, and of a text.

The table there gives, for each lead byte, the range of the second byte; that range is what rules
out overlong forms, surrogates and everything above U+10FFFF. A byte `10xxxxxx` is a tail, and the
number of tails a lead byte asks for is all a reader sees that looks at the top bits only.
-/

namespace Perfcached.Utf8

open Bytes

/-- `UTF8-tail = %x80-BF`. -/
def Tail (b : Byte) : Prop := 0x80 ≤ b.toNat ∧ b.toNat ≤ 0xBF

/-- The first two bytes of `UTF8-3`. -/
def Lead3 (a b : Byte) : Prop :=
  a.toNat = 0xE0 ∧ 0xA0 ≤ b.toNat ∧ b.toNat ≤ 0xBF ∨
  0xE1 ≤ a.toNat ∧ a.toNat ≤ 0xEC ∧ Tail b ∨
  a.toNat = 0xED ∧ 0x80 ≤ b.toNat ∧ b.toNat ≤ 0x9F ∨
  0xEE ≤ a.toNat ∧ a.toNat ≤ 0xEF ∧ Tail b

/-- The first two bytes of `UTF8-4`. -/
def Lead4 (a b : Byte) : Prop :=
  a.toNat = 0xF0 ∧ 0x90 ≤ b.toNat ∧ b.toNat ≤ 0xBF ∨
  0xF1 ≤ a.toNat ∧ a.toNat ≤ 0xF3 ∧ Tail b ∨
  a.toNat = 0xF4 ∧ 0x80 ≤ b.toNat ∧ b.toNat ≤ 0x8F

/-- `UTF8-char`. -/
inductive Char : List Byte → Prop
  | one {a : Byte} : a.toNat ≤ 0x7F → Char [a]
  | two {a b : Byte} : 0xC2 ≤ a.toNat → a.toNat ≤ 0xDF → Tail b → Char [a, b]
  | three {a b c : Byte} : Lead3 a b → Tail c → Char [a, b, c]
  | four {a b c d : Byte} : Lead4 a b → Tail c → Tail d → Char [a, b, c, d]

/-- `UTF8-octets = *( UTF8-char )`. -/
inductive Octets : List Byte → Prop
  | nil : Octets []
  | cons {c rest : List Byte} : Char c → Octets rest → Octets (c ++ rest)

theorem Char.octets {c : List Byte} (h : Char c) : Octets c := by
  simpa using Octets.cons h .nil

variable {s : List Byte}

theorem Octets.append {t : List Byte} (hs : Octets s) (ht : Octets t) : Octets (s ++ t) := by
  induction hs with
  | nil => exact ht
  | cons hc _ ih =>
    rw [List.append_assoc]
    exact .cons hc ih

theorem octets_ascii (h : ∀ b ∈ s, b.toNat ≤ 0x7F) : Octets s := by
  induction s with
  | nil => exact .nil
  | cons b s ih =>
    obtain ⟨hb, hs⟩ := List.forall_mem_cons.mp h
    exact .cons (.one hb) (ih hs)

variable {a b : Byte}

theorem Lead3.tail (h : Lead3 a b) : Tail b := by
  simp only [Lead3, Tail] at *
  omega

theorem Lead4.tail (h : Lead4 a b) : Tail b := by
  simp only [Lead4, Tail] at *
  omega

theorem Lead3.lead (h : Lead3 a b) : 0xE0 ≤ a.toNat ∧ a.toNat ≤ 0xEF := by
  simp only [Lead3] at h
  omega

theorem Lead4.lead (h : Lead4 a b) : 0xF0 ≤ a.toNat ∧ a.toNat ≤ 0xF4 := by
  simp only [Lead4] at h
  omega

/-- The first byte of a text is that of its first character. -/
theorem Octets.uncons (h : Octets (a :: s)) : ∃ c t, Char (a :: c) ∧ s = c ++ t ∧ Octets t := by
  generalize hl : a :: s = l at h
  cases h with
  | nil => cases hl
  | @cons c rest hc hr =>
    cases c with
    | nil => cases hc
    | cons b c =>
      obtain ⟨rfl, rfl⟩ := List.cons.inj hl
      exact ⟨c, rest, hc, rfl, hr⟩

/-- The first byte of a character tells how many follow. -/
theorem Char.length_tail (h : Char (a :: s)) : s.length =
    if a.toNat ≤ 0x7F then 0 else if a.toNat ≤ 0xDF then 1
    else if a.toNat ≤ 0xEF then 2 else 3 := by
  cases h with
  | one h =>
    rw [if_pos h]
    rfl
  | two hlo hhi =>
    rw [if_neg (by omega), if_pos hhi]
    rfl
  | three hl =>
    have hlead := hl.lead
    rw [if_neg (by omega), if_neg (by omega), if_pos hlead.2]
    rfl
  | four hl =>
    have hlead := hl.lead
    rw [if_neg (by omega), if_neg (by omega), if_neg (by omega)]
    rfl

/-- Behind a text a text begins. -/
theorem Octets.append_iff {t : List Byte} (hs : Octets s) : Octets (s ++ t) ↔ Octets t := by
  refine ⟨fun h => ?_, hs.append⟩
  induction hs with
  | nil => exact h
  | @cons c rest hc _ ih =>
    cases c with
    | nil => cases hc
    | cons a c =>
      rw [List.append_assoc, List.cons_append] at h
      obtain ⟨c', t', hc', heq, ht'⟩ := h.uncons
      obtain ⟨-, rfl⟩ := List.append_inj heq (hc.length_tail.trans hc'.length_tail.symm)
      exact ih ht'

/-- From 0xE0 up a first byte bounds the second. -/
theorem Octets.second (h : Octets (a :: b :: s)) (ha : 0xE0 ≤ a.toNat) : Lead3 a b ∨ Lead4 a b := by
  obtain ⟨c, t, hc, heq, -⟩ := h.uncons
  cases hc with
  | one | two => omega
  | three hl =>
    cases heq
    exact .inl hl
  | four hl =>
    cases heq
    exact .inr hl

end Perfcached.Utf8
