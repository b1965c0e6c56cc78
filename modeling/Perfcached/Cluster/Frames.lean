import Perfcached.Lib.Bytes

/-!
# Perfcached.Cluster.Frames

The frames whose lengths come off the wire: a migration record (`src/clmig.c`), a forwarded JSON
write and its answer (`src/clfwd.c`), read with the cursors of `src/clcodec.h`.

A parser adds a frame's header and the lengths read from it and compares the sum with the length
of the buffer. The sum is a `size_t`, here of `w` bits, and a length may be any 32-bit number. A
pointer into the buffer is its offset.
-/

namespace Perfcached.Cluster.Frames

open Bytes Option Nat

/-- A `size_t` of `w` bits. -/
def sizeT (w x : Nat) : Nat := x % 2 ^ w

/-! ### The read cursor -/

/-- `struct pc_rcur`. -/
structure Rcur where
  p : Nat
  stop : Nat

def pcRcurInit (buf n : Nat) : Rcur := ⟨buf, buf + n⟩

def pcRfits (c : Rcur) (n : Nat) : Bool := decide (c.p ≤ c.stop ∧ n ≤ c.stop - c.p)

def pcRskip (c : Rcur) (n : Nat) : Option Rcur :=
  if pcRfits c n then some { c with p := c.p + n } else none

/-- An unchecked read of `k` bytes. -/
def pcRu (k : Nat) (b : List Byte) : StateM Rcur Nat := fun c =>
  (rd k (b.drop c.p), { c with p := c.p + k })

def pcRu8 : List Byte → StateM Rcur Nat := pcRu 1
def pcRu16 : List Byte → StateM Rcur Nat := pcRu 2
def pcRu32 : List Byte → StateM Rcur Nat := pcRu 4
def pcRu64 : List Byte → StateM Rcur Nat := pcRu 8

/-! ### The migration record -/

/-- `struct clmig_rec`; the pointers are offsets in the datagram. -/
structure ClmigRec where
  ttlLeft : Nat
  col : Nat
  collen : Nat
  key : Nat
  klen : Nat
  val : Nat
  vlen : Nat
  ver : Nat
  flags : Nat
deriving DecidableEq

def clmigRhdr : Nat := 20

/-- `clmig_rec_hdr_parse`; it leaves the three pointers alone. -/
def clmigRecHdrParse (b : List Byte) (o : Nat) (r : ClmigRec) : ClmigRec :=
  let fields : StateM Rcur ClmigRec := do
    let ttlLeft ← pcRu32 b
    let collen ← pcRu8 b
    let klen ← pcRu16 b
    let vlen ← pcRu32 b
    let ver ← pcRu64 b
    let flags ← pcRu8 b
    return { r with ttlLeft, collen, klen, vlen, ver, flags }
  (fields.run (pcRcurInit o clmigRhdr)).1

/-- `clmig_rec_parse` at `off`: the new offset and the record, or nothing. -/
def clmigRecParse (w : Nat) (p : List Byte) (off : Nat) (r : ClmigRec) : Option (Nat × ClmigRec) :=
  let n := p.length
  let c := pcRcurInit off (if n > off then n - off else 0)
  if ¬ pcRfits c clmigRhdr then none
  else
    let r := clmigRecHdrParse p off r
    let next := sizeT w (off + clmigRhdr + r.collen + r.klen + r.vlen)
    if next > n then none
    else
      let col := off + clmigRhdr
      let key := col + r.collen
      some (next, { r with col, key, val := key + r.klen })

/-- What the header at `off` says its record takes, as a number: `clmig_rec_size` without the
word. -/
def clmigSize (p : List Byte) (off : Nat) : Nat :=
  clmigRhdr + rd 1 (p.drop (off + 4)) + rd 2 (p.drop (off + 5)) + rd 4 (p.drop (off + 7))

/-- Every run of bytes the record points at is in a buffer of `n` bytes. -/
def ClmigRec.Inside (r : ClmigRec) (n : Nat) : Prop :=
  r.col + r.collen ≤ n ∧ r.key + r.klen ≤ n ∧ r.val + r.vlen ≤ n

/-! ### The JSON frames -/

/-- `struct clfwd_json`; `amount` is its `by`. -/
structure ClfwdJson where
  req : Nat
  node : Nat
  jop : Nat
  flags : Nat
  ttl : Nat
  amount : Int
  col : Nat
  collen : Nat
  key : Nat
  klen : Nat
  path : Nat
  plen : Nat
  val : Nat
  vlen : Nat
deriving DecidableEq

def clfwdJsonHdr : Nat := 30

/-- The read of a `long long`. -/
def pcRi64 (b : List Byte) : StateM Rcur Int := do
  let v ← pcRu64 b
  return (BitVec.ofNat 64 v).toInt

def clfwdJsonParse (w : Nat) (pt : List Byte) : Option ClfwdJson :=
  let n := pt.length
  match pcRskip (pcRcurInit 0 n) 1 with
  | none => none
  | some c =>
    if ¬ pcRfits c (clfwdJsonHdr - 1) then none
    else
      let fields : StateM Rcur ClfwdJson := do
        let req ← pcRu32 pt
        let node ← pcRu16 pt
        let jop ← pcRu8 pt
        let flags ← pcRu8 pt
        let ttl ← pcRu32 pt
        let amount ← pcRi64 pt
        let collen ← pcRu8 pt
        let klen ← pcRu16 pt
        let plen ← pcRu16 pt
        let vlen ← pcRu32 pt
        let col := clfwdJsonHdr
        let key := col + collen
        let path := key + klen
        return { req, node, jop, flags, ttl, amount, col, collen, key, klen, path, plen,
                 val := path + plen, vlen }
      let j := (fields.run c).1
      if sizeT w (clfwdJsonHdr + j.collen + j.klen + j.plen + j.vlen) > n then none else some j

/-- What the header says the frame takes. -/
def clfwdJsonSize (pt : List Byte) : Nat :=
  clfwdJsonHdr + rd 1 (pt.drop 21) + rd 2 (pt.drop 22) + rd 2 (pt.drop 24) + rd 4 (pt.drop 26)

def ClfwdJson.Inside (j : ClfwdJson) (n : Nat) : Prop :=
  j.col + j.collen ≤ n ∧ j.key + j.klen ≤ n ∧ j.path + j.plen ≤ n ∧ j.val + j.vlen ≤ n

/-- `struct clfwd_jack`; no fragment is a null pointer. -/
structure ClfwdJack where
  req : Nat
  st : Nat
  jop : Nat
  newval : Int
  cnt : Nat
  frag : Option Nat
  fraglen : Nat
deriving DecidableEq

def clfwdJackHdr : Nat := 23

def clfwdJackParse (w : Nat) (pt : List Byte) : Option ClfwdJack :=
  let n := pt.length
  match pcRskip (pcRcurInit 0 n) 1 with
  | none => none
  | some c =>
    if ¬ pcRfits c (clfwdJackHdr - 1) then none
    else
      let fields : StateM Rcur ClfwdJack := do
        let req ← pcRu32 pt
        let st ← pcRu8 pt
        let jop ← pcRu8 pt
        let newval ← pcRi64 pt
        let cnt ← pcRu32 pt
        let fraglen ← pcRu32 pt
        return { req, st, jop, newval, cnt, fraglen,
                 frag := if fraglen ≠ 0 then some clfwdJackHdr else none }
      let a := (fields.run c).1
      if sizeT w (clfwdJackHdr + a.fraglen) > n then none else some a

def clfwdJackSize (pt : List Byte) : Nat := clfwdJackHdr + rd 4 (pt.drop 19)

def ClfwdJack.Inside (a : ClfwdJack) (n : Nat) : Prop :=
  ∀ frag, a.frag = some frag → frag + a.fraglen ≤ n

/-! ### What an accepted frame is -/

section Accepted

variable {w n : Nat}

/-- A sum that is in bounds as a word is in bounds iff it is its word. -/
theorem le_iff_of_sizeT_le {x : Nat} (hn : n < 2 ^ w) (hx : sizeT w x ≤ n) : x ≤ n ↔ x < 2 ^ w := by
  refine ⟨fun hle => by omega, fun hlt => ?_⟩
  rwa [sizeT, mod_eq_of_lt hlt] at hx

theorem pcRfits_iff {c : Rcur} : pcRfits c n = true ↔ c.p + n ≤ c.stop := by
  rw [pcRfits, decide_eq_true_eq]
  omega

theorem pcRskip_some {c c' : Rcur} (h : pcRskip c n = some c') :
    c.p + n ≤ c.stop ∧ c' = { c with p := c.p + n } := by
  rw [pcRskip, ite_none_right_eq_some, pcRfits_iff, some.injEq] at h
  exact ⟨h.1, h.2.symm⟩

/-- An accepted record is laid out from its header to where the header says. -/
theorem clmigRecParse_some {p : List Byte} {off next : Nat} {r₀ r : ClmigRec}
    (h : clmigRecParse w p off r₀ = some (next, r)) :
    off + clmigRhdr ≤ p.length ∧ next ≤ p.length ∧ next = sizeT w (off + clmigSize p off) ∧
      r.col + r.collen = r.key ∧ r.key + r.klen = r.val ∧
      r.val + r.vlen = off + clmigSize p off := by
  simp only [clmigRecParse, ite_none_left_eq_some, some.injEq, Prod.mk.injEq,
    pcRfits_iff, pcRcurInit, not_not] at h
  obtain ⟨hfits, hle, hnext, rfl⟩ := h
  have hhdr : off + clmigRhdr ≤ p.length := by
    have : (clmigRhdr : Nat) = 20 := rfl
    split at hfits <;> omega
  have hsum : off + clmigSize p off = off + clmigRhdr + rd 1 (p.drop (off + 4)) +
      rd 2 (p.drop (off + 5)) + rd 4 (p.drop (off + 7)) := by simp only [clmigSize, add_assoc]
  rw [hsum]
  exact ⟨hhdr, by omega, hnext.symm, rfl, rfl, rfl⟩

theorem clmigSize_lt (p : List Byte) (off : Nat) : clmigSize p off < 2 ^ 33 := by
  have hcol := rd_lt 1 (p.drop (off + 4))
  have hkey := rd_lt 2 (p.drop (off + 5))
  have hval := rd_lt 4 (p.drop (off + 7))
  rw [clmigSize, clmigRhdr]
  omega

theorem clfwdJsonParse_some {pt : List Byte} {j : ClfwdJson} (h : clfwdJsonParse w pt = some j) :
    sizeT w (clfwdJsonSize pt) ≤ pt.length ∧ j.col + j.collen = j.key ∧ j.key + j.klen = j.path ∧
      j.path + j.plen = j.val ∧ j.val + j.vlen = clfwdJsonSize pt := by
  simp only [clfwdJsonParse] at h
  split at h
  · cases h
  · simp only [ite_none_left_eq_some, some.injEq] at h
    obtain ⟨-, hle, rfl⟩ := h
    obtain ⟨-, rfl⟩ := pcRskip_some ‹_›
    exact ⟨le_of_not_gt hle, rfl, rfl, rfl, rfl⟩

theorem clfwdJsonSize_lt (pt : List Byte) : clfwdJsonSize pt < 2 ^ 64 := by
  have hcol := rd_lt 1 (pt.drop 21)
  have hkey := rd_lt 2 (pt.drop 22)
  have hpath := rd_lt 2 (pt.drop 24)
  have hval := rd_lt 4 (pt.drop 26)
  rw [clfwdJsonSize, clfwdJsonHdr]
  omega

theorem clfwdJackParse_some {pt : List Byte} {a : ClfwdJack} (h : clfwdJackParse w pt = some a) :
    clfwdJackHdr ≤ pt.length ∧ sizeT w (clfwdJackSize pt) ≤ pt.length ∧
      a.frag = (if a.fraglen ≠ 0 then some clfwdJackHdr else none) ∧
      clfwdJackHdr + a.fraglen = clfwdJackSize pt := by
  simp only [clfwdJackParse] at h
  split at h
  · cases h
  · rename_i c hskip
    simp only [ite_none_left_eq_some, some.injEq, not_not, pcRfits_iff] at h
    obtain ⟨hfits, hle, rfl⟩ := h
    obtain ⟨-, rfl⟩ := pcRskip_some hskip
    simp only [pcRcurInit] at hfits
    exact ⟨by omega, le_of_not_gt hle, rfl, rfl⟩

theorem clfwdJackSize_lt (pt : List Byte) : clfwdJackSize pt < 2 ^ 64 := by
  have hfrag := rd_lt 4 (pt.drop 19)
  rw [clfwdJackSize, clfwdJackHdr]
  omega

end Accepted

/-- **An accepted frame is inside its buffer iff its length fits the word.** For every buffer a
`size_t` of `w` bits can measure and every frame a parser accepts in it: what the frame points at
is in the buffer, and the record ends where the parser says, exactly if the header and the lengths
that are in the buffer sum to less than `2 ^ w`. With 64 bits, and a buffer no larger than an object
may be, they do. -/
theorem accepted_inside_iff (w : Nat) (p : List Byte) (hp : p.length < 2 ^ w) :
    (∀ off r₀ next r, clmigRecParse w p off r₀ = some (next, r) → next ≤ p.length ∧
        (r.Inside p.length ∧ next = off + clmigSize p off ↔ off + clmigSize p off < 2 ^ w) ∧
        (w = 64 → p.length < 2 ^ 63 → off + clmigSize p off < 2 ^ w)) ∧
    (∀ j, clfwdJsonParse w p = some j →
      (j.Inside p.length ↔ clfwdJsonSize p < 2 ^ w) ∧ (w = 64 → clfwdJsonSize p < 2 ^ w)) ∧
    (∀ a, clfwdJackParse w p = some a →
      (a.Inside p.length ↔ clfwdJackSize p < 2 ^ w) ∧ (w = 64 → clfwdJackSize p < 2 ^ w)) := by
  refine ⟨fun off r₀ next r hr => ?_, fun j hj => ?_, fun a ha => ?_⟩
  · obtain ⟨hhdr, hle, hnext, hkey, hval, hend⟩ := clmigRecParse_some hr
    have hfit := le_iff_of_sizeT_le hp (hnext ▸ hle)
    refine ⟨hle, ⟨fun h => hfit.mp (hend ▸ h.1.2.2), fun hlt => ?_⟩, ?_⟩
    · exact ⟨⟨by omega, by omega, by omega⟩, by rw [hnext, sizeT, mod_eq_of_lt hlt]⟩
    · rintro rfl hobj
      have hsize := clmigSize_lt p off
      omega
  · obtain ⟨hle, hkey, hpath, hval, hend⟩ := clfwdJsonParse_some hj
    have hfit := le_iff_of_sizeT_le hp hle
    refine ⟨⟨fun h => hfit.mp (hend ▸ h.2.2.2), fun hlt => ?_⟩, ?_⟩
    · exact ⟨by omega, by omega, by omega, by omega⟩
    · rintro rfl
      exact clfwdJsonSize_lt p
  · obtain ⟨hhdr, hle, hfrag, hend⟩ := clfwdJackParse_some ha
    have hfit := le_iff_of_sizeT_le hp hle
    refine ⟨⟨fun h => hfit.mp ?_, fun hlt frag hsome => ?_⟩, ?_⟩
    · by_cases hnone : a.fraglen = 0
      · rwa [← hend, hnone]
      · exact hend ▸ h _ (hfrag.trans (if_pos hnone))
    · rw [hfrag, ite_none_right_eq_some] at hsome
      obtain ⟨-, hat⟩ := hsome
      cases hat
      exact hend ▸ hfit.mpr hlt
    · rintro rfl
      exact clfwdJackSize_lt p

/-- A frame with one byte of fragment, on a 32-bit build. -/
def smallJack : List Byte := List.replicate 19 0 ++ [1, 0, 0, 0] ++ [123]

theorem accepted_inside_iff_smallJack :
    ∃ a, clfwdJackParse 32 smallJack = some a ∧ a.Inside smallJack.length := by
  refine ⟨⟨0, 0, 0, 0, 0, some 23, 1⟩, by decide, ?_⟩
  have hiff := ((accepted_inside_iff 32 smallJack (by decide)).2.2 _
    (show clfwdJackParse 32 smallJack = some ⟨0, 0, 0, 0, 0, some 23, 1⟩ by decide)).1
  exact hiff.mpr (by decide)

/-- A header that is zero but for a length of `2 ^ 32 - 1`. -/
def hugeFrame (before after : Nat) : List Byte :=
  List.replicate before 0 ++ [255, 255, 255, 255] ++ List.replicate after 0

/-- With a `size_t` of 32 bits all three parsers accept a bare header that promises `2 ^ 32 - 1`
bytes. -/
theorem huge_length_accepted :
    (∃ next r, clmigRecParse 32 (hugeFrame 7 9) 0 ⟨0, 0, 0, 0, 0, 0, 0, 0, 0⟩ = some (next, r) ∧
      ¬ r.Inside (hugeFrame 7 9).length) ∧
    (∃ j, clfwdJsonParse 32 (hugeFrame 26 0) = some j ∧ ¬ j.Inside (hugeFrame 26 0).length) ∧
    (∃ a, clfwdJackParse 32 (hugeFrame 19 0) = some a ∧ ¬ a.Inside (hugeFrame 19 0).length) := by
  refine ⟨⟨19, ⟨0, 20, 0, 20, 0, 20, 2 ^ 32 - 1, 0, 0⟩, by decide, fun h => ?_⟩,
    ⟨⟨0, 0, 0, 0, 0, 0, 30, 0, 30, 0, 30, 0, 30, 2 ^ 32 - 1⟩, by decide, fun h => ?_⟩,
    ⟨⟨0, 0, 0, 0, 0, some 23, 2 ^ 32 - 1⟩, by decide, fun h => ?_⟩⟩
  · exact absurd h.2.2 (by decide)
  · exact absurd h.2.2.2 (by decide)
  · exact absurd (h 23 rfl) (by decide)

end Perfcached.Cluster.Frames
