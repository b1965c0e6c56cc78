import Perfcached.Lib.Bytes

/-!
# Perfcached.Lib.Json

The strings of RFC 8259 section 7, byte by byte. A byte from 0x80 up is part of a character that
needs no escape; whether the bytes are UTF-8 is a matter of its own (`Perfcached.Lib.Utf8`).
-/

namespace Perfcached.Json

open Bytes

abbrev quote : Byte := 0x22#8

abbrev backslash : Byte := 0x5C#8

/-- `unescaped`, without a look at UTF-8. -/
def Unescaped (b : Byte) : Prop := 0x20 ≤ b.toNat ∧ b ≠ quote ∧ b ≠ backslash

/-- What may follow a backslash, `u` apart: quotation mark, reverse solidus, solidus and the
letters b, f, n, r and t. -/
def shortEscapes : List Byte := [quote, backslash, 0x2F#8, 0x62#8, 0x66#8, 0x6E#8, 0x72#8, 0x74#8]

/-- `HEXDIG`, in either case. -/
def HexDig (b : Byte) : Prop :=
  0x30 ≤ b.toNat ∧ b.toNat ≤ 0x39 ∨ 0x41 ≤ b.toNat ∧ b.toNat ≤ 0x46 ∨
    0x61 ≤ b.toNat ∧ b.toNat ≤ 0x66
  deriving Decidable

/-- `*char`: what stands between the quotation marks of a string. -/
inductive Chars : List Byte → Prop
  | nil : Chars []
  | plain {b : Byte} {s : List Byte} : Unescaped b → Chars s → Chars (b :: s)
  | short {e : Byte} {s : List Byte} : e ∈ shortEscapes → Chars s → Chars (backslash :: e :: s)
  | unicode {a b c d : Byte} {s : List Byte} : HexDig a → HexDig b → HexDig c → HexDig d →
      Chars s → Chars (backslash :: 0x75#8 :: a :: b :: c :: d :: s)

theorem Chars.append {s t : List Byte} (hs : Chars s) (ht : Chars t) : Chars (s ++ t) := by
  induction hs with
  | nil => exact ht
  | plain hb _ ih => exact .plain hb ih
  | short he _ ih => exact .short he ih
  | unicode ha hb hc hd _ ih => exact .unicode ha hb hc hd ih

theorem chars_of_unescaped {s : List Byte} (h : ∀ b ∈ s, Unescaped b) : Chars s := by
  induction s with
  | nil => exact .nil
  | cons b s ih =>
    obtain ⟨hb, hs⟩ := List.forall_mem_cons.mp h
    exact .plain hb (ih hs)

end Perfcached.Json
